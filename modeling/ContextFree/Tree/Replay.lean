import ContextFree.Grammar.Basic
import ContextFree.Tree.Basic

namespace ContextFree

/-- Why a list of production numbers is not the parse of a tree. -/
inductive ReplayError where
  | noStart
  | unknownProduction (number : Nat)
  | unexpectedHead (number : Nat)
  | incomplete
  | trailing (count : Nat)
  | wrongRoot
  deriving DecidableEq, Repr

def ReplayError.message : ReplayError → String
  | noStart => "the grammar has no start nonterminal"
  | unknownProduction n => s!"production {n} does not exist"
  | unexpectedHead n => s!"production {n} does not rewrite the expected nonterminal"
  | incomplete => "the parse ended before the tree was complete"
  | trailing k => s!"{k} production(s) left over after the tree was complete"
  | wrongRoot => "the tree is not rooted at the start nonterminal"

namespace Tree

variable {V T : Type}

/-- Grows the trees of a body from left to right, each nonterminal by `grow`, and returns them with
the numbers that are left. -/
def growAll (grow : V → List Nat → Except ReplayError (Tree V T × List Nat)) :
    List (Symbol V T) → List Nat → Except ReplayError (List (Tree V T) × List Nat)
  | [], parse => .ok ([], parse)
  | .terminal t :: body, parse => do
    let (ts, rest) ← growAll grow body parse
    return (leaf t :: ts, rest)
  | .nonterminal v :: body, parse => do
    let (t, rest) ← grow v parse
    let (ts, rest) ← growAll grow body rest
    return (t :: ts, rest)

variable [DecidableEq V]

/-- Grows the tree of a nonterminal from the front of a list of numbers. Every level of the tree
uses up a number, so a height as large as the length of the list suffices. -/
def grow (g : Grammar V T) : Nat → V → List Nat → Except ReplayError (Tree V T × List Nat)
  | 0, _, _ => .error .incomplete
  | _ + 1, _, [] => .error .incomplete
  | height + 1, v, n :: parse =>
    match g.production? n with
    | none => .error (.unknownProduction n)
    | some p =>
      if p.head = v then do
        let (ts, rest) ← growAll (grow g height) p.body parse
        return (node (.nonterminal v) ts, rest)
      else .error (.unexpectedHead n)

/-- The tree of a left parse: the productions of a leftmost derivation in the order in which they
are applied. -/
def ofLeftParse (g : Grammar V T) (parse : List Nat) : Except ReplayError (Tree V T) :=
  match g.start with
  | none => .error .noStart
  | some v =>
    match grow g parse.length v parse with
    | .error e => .error e
    | .ok (t, []) => .ok t
    | .ok (_, rest) => .error (.trailing rest.length)

variable [DecidableEq T]

/-- Takes the children for a reversed body off a stack of trees, from right to left, in front of
those already taken. -/
def gather (number : Nat) :
    List (Symbol V T) → List (Tree V T) → List (Tree V T) →
      Except ReplayError (List (Tree V T) × List (Tree V T))
  | [], taken, stack => .ok (taken, stack)
  | .terminal t :: body, taken, stack => gather number body (leaf t :: taken) stack
  | .nonterminal _ :: _, _, [] => .error .incomplete
  | .nonterminal v :: body, taken, t :: stack =>
    if t.symbol = .nonterminal v then gather number body (t :: taken) stack
    else .error (.unexpectedHead number)

/-- Joins the trees on top of a stack under the head of a production. -/
def assemble (g : Grammar V T) (stack : List (Tree V T)) (number : Nat) :
    Except ReplayError (List (Tree V T)) :=
  match g.production? number with
  | none => .error (.unknownProduction number)
  | some p => do
    let (ts, rest) ← gather number p.body.reverse [] stack
    return node (.nonterminal p.head) ts :: rest

/-- The tree of a right parse: the productions of a rightmost derivation in reverse, which is the
order in which a shift-reduce parser reduces them. -/
def ofRightParse (g : Grammar V T) (parse : List Nat) : Except ReplayError (Tree V T) :=
  match g.start with
  | none => .error .noStart
  | some v => do
    match ← parse.foldlM (assemble g) [] with
    | [t] => if t.symbol = .nonterminal v then .ok t else .error .wrongRoot
    | _ => .error .incomplete

end Tree

end ContextFree
