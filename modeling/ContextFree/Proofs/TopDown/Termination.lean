import ContextFree.Proofs.Checks
import ContextFree.Proofs.TopDown.Search

namespace ContextFree.TopDown

variable {V T : Type} [DecidableEq V]

/-- A string behind which all is finite if it vanishes is finite if its left corners are. -/
theorem acc_of_leftCorners (known : List V) (finite : List (Symbol V T) → Prop)
    (hterminal : ∀ t rest, finite (.terminal t :: rest)) (rest : List (Symbol V T))
    (body : List (Symbol V T))
    (hcorner : ∀ v ∈ leftCorners known body, ∀ rest, (v ∈ known → finite rest) →
      finite (.nonterminal v :: rest))
    (hvanish : body.all (Symbol.vanishes known) → finite rest) : finite (body ++ rest) := by
  induction body with
  | nil => exact hvanish rfl
  | cons s body ih =>
    cases s with
    | terminal t => exact hterminal t _
    | nonterminal v =>
      apply hcorner v List.mem_cons_self
      intro hv
      apply ih
      · intro w hw
        apply hcorner w
        rw [leftCorners, if_pos hv]
        exact List.mem_cons_of_mem _ hw
      · intro hbody
        apply hvanish
        rw [List.all_cons, hbody, Bool.and_true]
        exact decide_eq_true hv

variable [DecidableEq T] {g : Grammar V T} {word : List T} {fault : Option (InputFault V T)}

/-- At a place where the search is finite behind every match, a nonterminal is finite if what
follows it is, which matters only if the nonterminal vanishes. -/
theorem acc_nonterminal (hwf : WellFounded g.leftCornerEdges.Successor) (i : Nat)
    (hterminal : ∀ t rest, Acc (search g word fault).Child (.terminal t :: rest, i)) (v : V) :
    ∀ rest, (v ∈ g.nullable → Acc (search g word fault).Child (rest, i)) →
      Acc (search g word fault).Child (.nonterminal v :: rest, i) := by
  induction v using hwf.induction with
  | _ v ih =>
    intro rest hrest
    constructor
    intro place h
    obtain ⟨a, hleads⟩ := h
    obtain ⟨rank, p, hp, rfl, rfl⟩ := leads_nonterminal.mp hleads
    obtain ⟨hin, rfl⟩ := Grammar.mem_alternatives.mp (List.mem_of_getElem? hp)
    apply acc_of_leftCorners g.nullable (fun form => Acc (search g word fault).Child (form, i))
      hterminal
    · intro w hw
      exact ih w (Grammar.successor_leftCornerEdges.mpr ⟨p, hin, rfl, hw⟩)
    · intro hbody
      exact hrest (g.closed_nullable p hin hbody)

/-- The top-down search below every place is finite. -/
theorem acc_place (hwf : WellFounded g.leftCornerEdges.Successor) (form : List (Symbol V T))
    (i : Nat) : Acc (search g word fault).Child (form, i) := by
  -- The rest of the word shrinks with each match; the frontier may grow, but only in between.
  induction hrest : word.length - i using Nat.strong_induction_on generalizing i form with
  | _ remaining ih =>
    subst hrest
    have hterminal : ∀ t rest, Acc (search g word fault).Child (.terminal t :: rest, i) := by
      intro t rest
      constructor
      intro place h
      obtain ⟨a, hleads⟩ := h
      obtain ⟨hword, rfl, rfl⟩ := leads_terminal.mp hleads
      have hlt := (List.getElem?_eq_some_iff.mp hword).1
      exact ih _ (by omega) rest (i + 1) rfl
    induction form with
    | nil =>
      constructor
      intro place h
      obtain ⟨a, hleads⟩ := h
      exact False.elim (not_leads_nil hleads)
    | cons s rest ihform =>
      cases s with
      | terminal t => exact hterminal t rest
      | nonterminal v => exact acc_nonterminal hwf i hterminal v rest fun _ => ihform

end ContextFree.TopDown
