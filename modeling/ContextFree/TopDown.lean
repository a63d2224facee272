import ContextFree.Machine.Basic

namespace ContextFree.TopDown

variable {V T : Type}

/-- A choice of the top-down automaton. -/
inductive Point (V T : Type) where
  /-- A nonterminal was replaced by a production, the one of the given rank among its alternatives,
  counted from 0. -/
  | expand (p : Production V T) (rank : Nat)
  | matched (t : T)
  deriving DecidableEq, Repr

/-- A configuration, whose symbols are the frontier: the part of a sentential form that is still to
be matched. -/
abbrev Config (V T : Type) := Configuration (Point V T) V T

def Point.number? : Point V T → Option Nat
  | expand p _ => some p.number
  | matched _ => none

/-- The productions of a history in the order in which they were applied. -/
def derivation (history : List (Point V T)) : List Nat :=
  history.reverse.filterMap Point.number?

/-- The frontier is empty, which is right only at the end of the input. -/
def finish (c : Config V T) : Option T → Config V T
  | none => { c with mode := .accepting }
  | some _ => { c with mode := .backtracking }

/-- Matches the terminal at the front, behind which `rest` follows. -/
def matchFront [DecidableEq T] (c : Config V T) (t : T) (rest : List (Symbol V T))
    (seen : Option T) : Config V T :=
  if seen = some t then
    { c with cursor := c.cursor + 1, history := .matched t :: c.history, symbols := rest }
  else { c with mode := .backtracking }

/-- Replaces a nonterminal in front of `rest` by the body of a production. -/
def expand (c : Config V T) (p : Production V T) (rank : Nat) (older : List (Point V T))
    (rest : List (Symbol V T)) : Config V T :=
  { c with mode := .querying, history := .expand p rank :: older, symbols := p.body ++ rest }

variable [DecidableEq V] [DecidableEq T]

def query (byHead : Grouping V (Production V T)) (c : Config V T) : Move (Point V T) V T :=
  match c.symbols with
  | [] => .look (finish c)
  | .terminal t :: rest => .look (matchFront c t rest)
  | .nonterminal v :: rest =>
    match (byHead.find v)[0]? with
    | some p => .enter (expand c p 0 c.history rest)
    | none => .enter { c with mode := .backtracking }

/-- Undoes the latest choice: a match is taken back, and an expansion gives way to the next
alternative or, behind the last one, to the nonterminal itself. -/
def backtrack (byHead : Grouping V (Production V T)) (c : Config V T) : Move (Point V T) V T :=
  match c.history with
  | [] => .reject
  | .matched t :: older =>
    .enter { c with
      cursor := c.cursor - 1, history := older, symbols := .terminal t :: c.symbols }
  | .expand p rank :: older =>
    let rest := c.symbols.drop p.body.length
    match (byHead.find p.head)[rank + 1]? with
    | some q => .enter (expand c q (rank + 1) older rest)
    | none => .enter { c with history := older, symbols := .nonterminal p.head :: rest }

def move (byHead : Grouping V (Production V T)) (c : Config V T) : Move (Point V T) V T :=
  match c.mode with
  | .querying => query byHead c
  | .backtracking => backtrack byHead c
  | .accepting => .accept (derivation c.history)

variable [Name V] [Name T]

def Point.text : Point V T → String
  | expand p rank => Name.text p.head ++ (rank + 1).repr
  | matched t => Name.text t

/-- A configuration is shown as its mode, its cursor, its history from the oldest point on, and its
frontier before an end mark. -/
def line (c : Config V T) : String :=
  let history :=
    if c.history.isEmpty then "e" else " ".intercalate (c.history.reverse.map Point.text)
  let frontier := if c.mode = .accepting then "e" else Symbol.textAll c.symbols ++ "$"
  "(" ++ ", ".intercalate [c.mode.text, c.cursor.repr, history, frontier] ++ ")"

/-- The top-down automaton. It expands the leftmost nonterminal of a sentential form by its
alternatives in their order, and matches terminals that reach the front against the input. -/
def machine (g : Grammar V T) (start : V) : Machine (Point V T) V T :=
  let byHead := g.byHead
  { initial := ⟨.querying, 1, [], [.nonterminal start]⟩
    move := move byHead
    line := line }

end ContextFree.TopDown
