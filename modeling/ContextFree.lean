import ContextFree.Grammar.Builder
import ContextFree.Main
import ContextFree.Proofs.TopDown.Exact
import ContextFree.Proofs.BottomUp.Exact
import ContextFree.Proofs.Laziness
import ContextFree.Proofs.Agreement
import ContextFree.Proofs.Decoding
import ContextFree.Proofs.Text.Canonical
import ContextFree.Proofs.Renaming.Exact
import ContextFree.Proofs.Command
import ContextFree.Proofs.LeftRecursion
import ContextFree.Proofs.UnitCycle
import ContextFree.Proofs.TopDown.Demand
import ContextFree.Proofs.TopDown.Undo
import ContextFree.Proofs.BottomUp.Exhaustion
import ContextFree.Proofs.BottomUp.Undo
import ContextFree.Proofs.LeftRewriting
import ContextFree.Proofs.RightForest
import ContextFree.Proofs.Text.Shown
import ContextFree.Proofs.Text.Layout
import ContextFree.Proofs.Restriction
import ContextFree.Proofs.Trace
import ContextFree.Proofs.DepthFirst
import ContextFree.Proofs.Unrepeated
import ContextFree.Proofs.BottomUp.Enumeration
import ContextFree.Proofs.Declarations
import ContextFree.Proofs.Outline
import ContextFree.Proofs.RecursiveSearch
import ContextFree.Proofs.Lookahead
import ContextFree.Proofs.Text.Cover
import ContextFree.Proofs.Yield
