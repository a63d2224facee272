import ContextFree.Machine.Basic

namespace ContextFree.BottomUp

variable {V T : Type}

/-- A choice of the bottom-up automaton. -/
inductive Point (V T : Type) where
  | shift
  | reduce (p : Production V T)
  deriving DecidableEq, Repr

/-- A configuration, whose symbols are the stack, top first. -/
abbrev Config (V T : Type) := Configuration (Point V T) V T

def Point.number? : Point V T → Option Nat
  | shift => none
  | reduce p => some p.number

/-- The productions of a history in the order in which a rightmost derivation applies them, which is
the reverse of the order of the reductions. -/
def derivation (history : List (Point V T)) : List Nat :=
  history.filterMap Point.number?

/-- Replaces a body on top of the stack by its head. -/
def reduce (c : Config V T) (p : Production V T) (older : List (Point V T))
    (stack : List (Symbol V T)) : Config V T :=
  { c with
    mode := .querying
    history := .reduce p :: older
    symbols := .nonterminal p.head :: stack.drop p.body.length }

def shift (c : Config V T) (t : T) (older : List (Point V T)) (stack : List (Symbol V T)) :
    Config V T :=
  { c with
    mode := .querying
    cursor := c.cursor + 1
    history := .shift :: older
    symbols := .terminal t :: stack }

/-- Shifts the terminal at the cursor, or backtracks at the end of the input. -/
def shiftOrUndo (c : Config V T) (older : List (Point V T)) (stack : List (Symbol V T)) :
    Option T → Config V T
  | some t => shift c t older stack
  | none => { c with mode := .backtracking, history := older, symbols := stack }

variable [DecidableEq V] [DecidableEq T]

/-- The productions with a body, filed under its last symbol. -/
def byLast (g : Grammar V T) : Grouping (Symbol V T) (Production V T) :=
  .ofList (g.productions.filterMap fun p => p.body.getLast?.map fun s => (s, p))

/-- The first production with a number above `after` whose body is on top of the stack. -/
def nextReduction (byLast : Grouping (Symbol V T) (Production V T)) (stack : List (Symbol V T))
    (after : Nat) : Option (Production V T) :=
  match stack with
  | [] => none
  | top :: _ =>
    (byLast.find top).find? fun p => after < p.number && p.body.reverse.isPrefixOf stack

/-- Makes the next choice. A stack that holds just the start is accepted at the end of the input. -/
def query (byLast : Grouping (Symbol V T) (Production V T)) (start : V) (c : Config V T) :
    Move (Point V T) V T :=
  let reduction := nextReduction byLast c.symbols 0
  if c.symbols = [.nonterminal start] then
    .look fun seen =>
      match seen, reduction with
      | none, _ => { c with mode := .accepting }
      | some _, some p => reduce c p c.history c.symbols
      | some t, none => shift c t c.history c.symbols
  else
    match reduction with
    | some p => .enter (reduce c p c.history c.symbols)
    | none => .look (shiftOrUndo c c.history c.symbols)

/-- Undoes the latest choice: a shift is taken back, and a reduction gives way to the next one of
the same stack or, behind the last one, to a shift. -/
def backtrack (byLast : Grouping (Symbol V T) (Production V T)) (c : Config V T) :
    Move (Point V T) V T :=
  match c.history with
  | [] => .reject
  | .shift :: older =>
    .enter { c with cursor := c.cursor - 1, history := older, symbols := c.symbols.tail }
  | .reduce p :: older =>
    let stack := p.body.reverse ++ c.symbols.tail
    match nextReduction byLast stack p.number with
    | some q => .enter (reduce c q older stack)
    | none => .look (shiftOrUndo c older stack)

def move (byLast : Grouping (Symbol V T) (Production V T)) (start : V) (c : Config V T) :
    Move (Point V T) V T :=
  match c.mode with
  | .querying => query byLast start c
  | .backtracking => backtrack byLast c
  | .accepting => .accept (derivation c.history)

def Point.text : Point V T → String
  | shift => "s"
  | reduce p => p.number.repr

variable [Name V] [Name T]

/-- A configuration is shown as its mode, its cursor, its stack from the bottom on behind an end
mark, and its history from the latest point on. -/
def line (c : Config V T) : String :=
  let stack := "$" ++ Symbol.textAll c.symbols.reverse
  let history := if c.history.isEmpty then "e" else String.join (c.history.map Point.text)
  "(" ++ ", ".intercalate [c.mode.text, c.cursor.repr, stack, history] ++ ")"

/-- The bottom-up automaton. It shifts input terminals onto a stack and reduces bodies on top of the
stack to their heads, trying reductions before shifts and productions in order of their numbers. -/
def machine (g : Grammar V T) (start : V) : Machine (Point V T) V T :=
  let index := byLast g
  { initial := ⟨.querying, 1, [], []⟩
    move := move index start
    line := line }

end ContextFree.BottomUp
