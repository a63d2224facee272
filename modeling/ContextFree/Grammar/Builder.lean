import ContextFree.Grammar.Basic

namespace ContextFree

/-- What has been declared of a grammar so far. -/
structure Builder (V T : Type) where
  start : Option V
  rules : List (Rule V T)

namespace Builder

variable {V T : Type}

def empty : Builder V T :=
  ⟨none, []⟩

/-- Declares the start; a later declaration replaces an earlier one. -/
def setStart (b : Builder V T) (v : V) : Builder V T :=
  { b with start := some v }

def addRule (b : Builder V T) (head : V) (body : List (Symbol V T)) : Builder V T :=
  { b with rules := b.rules ++ [⟨head, body⟩] }

def lastNumber (b : Builder V T) : Nat :=
  b.rules.length

/-- Declares one rule a body, all with the same head; no bodies declare nothing. -/
def addRules (b : Builder V T) (head : V) (bodies : List (List (Symbol V T))) : Builder V T :=
  bodies.foldl (fun b body => b.addRule head body) b

/-- The grammar of the declared rules, numbered in order of declaration. -/
def build (b : Builder V T) : Grammar V T :=
  .ofRules b.start b.rules

theorem rules_addRules (b : Builder V T) (head : V) (bodies : List (List (Symbol V T))) :
    (b.addRules head bodies).rules = b.rules ++ bodies.map fun body => ⟨head, body⟩ := by
  unfold addRules
  induction bodies generalizing b with
  | nil => simp
  | cons body rest ih =>
    rw [List.foldl_cons, ih]
    simp [addRule]

end Builder

end ContextFree
