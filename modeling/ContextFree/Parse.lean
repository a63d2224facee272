import ContextFree.BottomUp
import ContextFree.TopDown
import ContextFree.Tree.Replay

namespace ContextFree

variable {V T : Type}

/-- What a parse comes to: its derivation or error, the number of symbols taken from the input, and
the lines of its trace. -/
structure Report (V T : Type) where
  outcome : Except (ParseError V T) (List Nat)
  taken : Nat
  trace : List String

def Run.report? {P : Type} : Run P V T → Option (Report V T)
  | running _ => none
  | halted outcome reader sink => some ⟨outcome, reader.taken, sink.lines⟩

/-- The report of a run of an automaton, if it halts within a number of moves. -/
def Machine.report? {P : Type} (m : Machine P V T) (input : Input V T) (sink : Sink) (moves : Nat) :
    Option (Report V T) :=
  (m.run input moves (m.start sink)).report?

inductive Strategy where
  | topDown
  | bottomUp
  deriving DecidableEq, Repr

namespace Strategy

variable [DecidableEq V] [DecidableEq T]

/-- The start of a grammar, unless the grammar has a defect that rules the strategy out. -/
def check (g : Grammar V T) : Strategy → Except (Defect V) V
  | topDown => g.checkTopDown
  | bottomUp => g.checkBottomUp

def tree (g : Grammar V T) (derivation : List Nat) : Strategy → Except ReplayError (Tree V T)
  | topDown => Tree.ofLeftParse g derivation
  | bottomUp => Tree.ofRightParse g derivation.reverse

variable [Name V] [Name T]

/-- Parses an input, with a trace written to a sink, in at most the given number of moves. An
automaton is only run on a grammar without defects. -/
def parse (strategy : Strategy) (g : Grammar V T) (source : Source V T) (sink : Sink)
    (moves : Nat) : Option (Report V T) :=
  let input : Input V T := ⟨source, g.isTerminal⟩
  match strategy.check g with
  | .error defect => some ⟨.error (.badGrammar defect), 0, sink.lines⟩
  | .ok start =>
    match strategy with
    | topDown => (TopDown.machine g start).report? input sink moves
    | bottomUp => (BottomUp.machine g start).report? input sink moves

end Strategy

end ContextFree
