import ContextFree.Cycle
import ContextFree.Grammar.Nullable

namespace ContextFree

/-- Why a grammar cannot be parsed. Empty bodies and unit cycles matter to bottom-up parsing only,
left recursion to top-down parsing only. -/
inductive Defect (V : Type) where
  | noProductions
  | missingStart (start : V)
  | emptyBody (number : Nat)
  | unitCycle (cycle : List V)
  | leftRecursion (cycle : List V)
  deriving DecidableEq, Repr

def cycleText {V : Type} [Name V] (cycle : List V) : String :=
  String.intercalate " -> " (cycle.map Name.text)

def Defect.message {V : Type} [Name V] : Defect V → String
  | noProductions => "grammar has no productions"
  | missingStart v => "start nonterminal `" ++ Name.text v ++ "` has no productions"
  | emptyBody n => s!"production {n} has an empty right-hand side"
  | unitCycle c => "unit productions form a cycle: " ++ cycleText c
  | leftRecursion c => "grammar is left-recursive: " ++ cycleText c

variable {V T : Type} [DecidableEq V]

/-- The nonterminals that can begin what a body derives: each that follows only nonterminals which
derive the empty string. -/
def leftCorners (nullable : List V) : List (Symbol V T) → List V
  | [] => []
  | .terminal _ :: _ => []
  | .nonterminal v :: body => v :: if v ∈ nullable then leftCorners nullable body else []

namespace Grammar

/-- The start, if it has productions. -/
def definedStart (g : Grammar V T) : Except (Defect V) V :=
  match g.start with
  | none => .error .noProductions
  | some v =>
    if g.productions.isEmpty then .error .noProductions
    else if g.isDefined v then .ok v
    else .error (.missingStart v)

/-- Each head joined to the left corners of its bodies. -/
def leftCornerEdges (g : Grammar V T) : Grouping V V :=
  let nullable := g.nullable
  .ofList (g.productions.flatMap fun p => (leftCorners nullable p.body).map fun v => (p.head, v))

/-- Each head joined to the nonterminals that alone make up one of its bodies. -/
def unitEdges (g : Grammar V T) : Grouping V V :=
  .ofList (g.productions.filterMap fun p => p.toRule.unit?.map fun v => (p.head, v))

/-- The start of a grammar for top-down parsing, which must not be left-recursive: expanding a
left-recursive nonterminal need never consume input. -/
def checkTopDown (g : Grammar V T) : Except (Defect V) V := do
  let start ← g.definedStart
  match findCycle g.heads g.leftCornerEdges with
  | some cycle => .error (.leftRecursion cycle)
  | none => .ok start

/-- The start of a grammar for bottom-up parsing, which must have neither empty bodies nor cycles of
unit productions: both allow reductions without end. -/
def checkBottomUp (g : Grammar V T) : Except (Defect V) V := do
  let start ← g.definedStart
  match g.productions.find? (fun p => p.body.isEmpty) with
  | some p => .error (.emptyBody p.number)
  | none =>
    match findCycle g.heads g.unitEdges with
    | some cycle => .error (.unitCycle cycle)
    | none => .ok start

end Grammar

end ContextFree
