import ContextFree.Proofs.BottomUp.Search

namespace ContextFree.BottomUp

variable {V T : Type}

/-- A production of a grammar can be reduced on a stack, whose top comes first: it has a body, and
the stack ends with it. -/
structure Applicable (g : Grammar V T) (stack : List (Symbol V T)) (p : Production V T) : Prop where
  mem : p ∈ g.productions
  body_ne_nil : p.body ≠ []
  suffix : p.body <:+ stack.reverse

variable [DecidableEq V] [DecidableEq T]

/-- The productions that an index finds on a stack, if it is asked again and again, first behind a
number and then behind that of each answer, until it finds none. -/
inductive Enumerates (index : Grouping (Symbol V T) (Production V T)) (stack : List (Symbol V T)) :
    Nat → List (Production V T) → Prop
  | nil {after : Nat} (hnone : nextReduction index stack after = none) :
      Enumerates index stack after []
  | cons {after : Nat} {p : Production V T} {rest : List (Production V T)}
      (hnext : nextReduction index stack after = some p)
      (hrest : Enumerates index stack p.number rest) : Enumerates index stack after (p :: rest)

/-- The productions that can be reduced on a stack and have a number above a limit. -/
def reductionsBehind (g : Grammar V T) (stack : List (Symbol V T)) (after : Nat) :
    List (Production V T) :=
  (reductions g stack).filter fun p => after < p.number

variable {g : Grammar V T} {stack : List (Symbol V T)} {after : Nat} {p : Production V T}
  {rest : List (Production V T)}

theorem applicable_iff : Applicable g stack p ↔ p ∈ reductions g stack := by
  rw [mem_reductions]
  constructor
  · rintro ⟨hmem, hbody, below, hstack⟩
    refine ⟨hmem, hbody, below.reverse, ?_⟩
    rw [← List.reverse_append, hstack, List.reverse_reverse]
  · rintro ⟨hmem, hbody, below, rfl⟩
    exact ⟨hmem, hbody, below.reverse, by simp⟩

theorem mem_reductionsBehind :
    p ∈ reductionsBehind g stack after ↔ Applicable g stack p ∧ after < p.number := by
  rw [reductionsBehind, List.mem_filter, decide_eq_true_iff, applicable_iff]

theorem pairwise_reductionsBehind (g : Grammar V T) (stack : List (Symbol V T)) (after : Nat) :
    (reductionsBehind g stack after).Pairwise fun p q => p.number < q.number :=
  (pairwise_reductions g stack).filter _

theorem nextReduction_eq_head? :
    nextReduction (byLast g) stack after = (reductionsBehind g stack after).head? := by
  rw [nextReduction_eq_find?, reductionsBehind, List.head?_filter]

/-- Behind the first of them there come the others. -/
theorem reductionsBehind_number (h : reductionsBehind g stack after = p :: rest) :
    reductionsBehind g stack p.number = rest := by
  have hsorted := pairwise_reductionsBehind g stack after
  have hp : after < p.number := (mem_reductionsBehind.mp (h ▸ List.mem_cons_self)).2
  rw [h, List.pairwise_cons] at hsorted
  have hbehind : reductionsBehind g stack p.number =
      (reductionsBehind g stack after).filter fun q => p.number < q.number := by
    rw [reductionsBehind, reductionsBehind, List.filter_filter]
    apply List.filter_congr
    intro q _
    by_cases hq : p.number < q.number
    · simp [hq, Nat.lt_trans hp hq]
    · simp [hq]
  rw [hbehind, h, List.filter_cons_of_neg (by simp), List.filter_eq_self]
  intro q hq
  exact decide_eq_true (hsorted.1 q hq)

theorem enumerates_reductionsBehind (g : Grammar V T) (stack : List (Symbol V T)) (after : Nat) :
    Enumerates (byLast g) stack after (reductionsBehind g stack after) := by
  generalize hrest : reductionsBehind g stack after = rest
  induction rest generalizing after with
  | nil =>
    apply Enumerates.nil
    rw [nextReduction_eq_head?, hrest]
    rfl
  | cons p rest ih =>
    refine .cons ?_ (ih p.number (reductionsBehind_number hrest))
    rw [nextReduction_eq_head?, hrest]
    rfl

theorem Enumerates.unique {index : Grouping (Symbol V T) (Production V T)}
    {found found' : List (Production V T)} (h : Enumerates index stack after found)
    (h' : Enumerates index stack after found') : found = found' := by
  induction h generalizing found' with
  | nil hnone =>
    cases h' with
    | nil => rfl
    | cons hnext _ => cases hnone.symm.trans hnext
  | cons hnext _ ih =>
    cases h' with
    | nil hnone => cases hnext.symm.trans hnone
    | cons hnext' hrest =>
      cases hnext.symm.trans hnext'
      rw [ih hrest]

theorem nextReduction_eq_none :
    nextReduction (byLast g) stack after = none ↔
      ∀ q, Applicable g stack q → q.number ≤ after := by
  rw [nextReduction_eq_head?, List.head?_eq_none_iff, List.eq_nil_iff_forall_not_mem]
  simp only [mem_reductionsBehind, not_and, Nat.not_lt]

theorem nextReduction_eq_some :
    nextReduction (byLast g) stack after = some p ↔
      (Applicable g stack p ∧ after < p.number) ∧
        ∀ q, Applicable g stack q → after < q.number → p.number ≤ q.number := by
  have hsorted := pairwise_reductionsBehind g stack after
  rw [nextReduction_eq_head?]
  constructor
  · intro h
    obtain ⟨rest, hrest⟩ := List.head?_eq_some_iff.mp h
    rw [hrest, List.pairwise_cons] at hsorted
    refine ⟨mem_reductionsBehind.mp (hrest ▸ List.mem_cons_self), fun q hq hlt => ?_⟩
    have hmem := mem_reductionsBehind.mpr ⟨hq, hlt⟩
    rw [hrest] at hmem
    rcases List.mem_cons.mp hmem with rfl | hmem
    · exact Nat.le_refl _
    · exact Nat.le_of_lt (hsorted.1 q hmem)
  · intro ⟨hp, hleast⟩
    have hmem := mem_reductionsBehind.mpr hp
    cases hbehind : reductionsBehind g stack after with
    | nil =>
      rw [hbehind] at hmem
      cases hmem
    | cons q rest =>
      rw [hbehind] at hmem hsorted
      rcases List.mem_cons.mp hmem with rfl | hmem
      · rfl
      · -- A production behind the first one is not the lowest.
        have hq := mem_reductionsBehind.mp (hbehind ▸ List.mem_cons_self)
        have hle := hleast q hq.1 hq.2
        have hlt := (List.pairwise_cons.mp hsorted).1 p hmem
        exact False.elim (Nat.not_le_of_lt hlt hle)

/-- On every stack and for every number, the index finds the lowest production above the number that
can be reduced, and none exactly if there is none. So to ask it first from 0 on and then behind each
answer ends, and gives every production that can be reduced once, in ascending order. -/
theorem nextReduction_exact (g : Grammar V T) (stack : List (Symbol V T)) :
    (∀ after p, nextReduction (byLast g) stack after = some p ↔
      (Applicable g stack p ∧ after < p.number) ∧
        ∀ q, Applicable g stack q → after < q.number → p.number ≤ q.number) ∧
    (∀ after, nextReduction (byLast g) stack after = none ↔
      ¬ ∃ q, Applicable g stack q ∧ after < q.number) ∧
    ∃ found, (∀ found', Enumerates (byLast g) stack 0 found' ↔ found' = found) ∧
      (found.Pairwise fun p q => p.number < q.number) ∧
      ∀ p, p ∈ found ↔ Applicable g stack p := by
  refine ⟨fun _ _ => nextReduction_eq_some, fun after => ?_, reductionsBehind g stack 0,
    fun found' => ?_, pairwise_reductionsBehind g stack 0, fun p => ?_⟩
  · rw [nextReduction_eq_none]
    simp
  · have hfound := enumerates_reductionsBehind g stack 0
    constructor
    · exact fun h => h.unique hfound
    · rintro rfl
      exact hfound
  · rw [mem_reductionsBehind]
    exact and_iff_left_of_imp fun hp => Grammar.number_pos hp.mem

end ContextFree.BottomUp
