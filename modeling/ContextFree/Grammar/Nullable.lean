import ContextFree.Grammar.Basic

namespace ContextFree

variable {V T : Type} [DecidableEq V]

/-- Whether a symbol is a nonterminal already known to derive the empty string. -/
def Symbol.vanishes (known : List V) : Symbol V T → Bool
  | .terminal _ => false
  | .nonterminal v => decide (v ∈ known)

/-- Learns that a head vanishes if its body does. -/
def Rule.learn (known : List V) (r : Rule V T) : List V :=
  if r.head ∈ known then known
  else if r.body.all (Symbol.vanishes known) then known ++ [r.head]
  else known

theorem Rule.nodup_learn {known : List V} (h : known.Nodup) (r : Rule V T) :
    (r.learn known).Nodup := by
  unfold Rule.learn
  split
  · exact h
  · rename_i hm
    split
    · exact List.nodup_append.mpr ⟨h, by simp, by
        intro x hx y hy e
        rw [List.mem_singleton.mp hy] at e
        exact hm (e ▸ hx)⟩
    · exact h

namespace Grammar

def learnAll (g : Grammar V T) (known : List V) : List V :=
  g.productions.foldl (fun known p => p.learn known) known

/-- Passes until one learns nothing, but no more than the given number. -/
def passes (g : Grammar V T) : Nat → List V → List V
  | 0, known => known
  | n + 1, known =>
    let next := g.learnAll known
    if next.length = known.length then known else g.passes n next

/-- The nonterminals that derive the empty string. A pass that does not end the search learns the
head of one more production, so there need be no more passes than productions. -/
def nullable (g : Grammar V T) : List V :=
  g.passes g.productions.length []

end Grammar

end ContextFree
