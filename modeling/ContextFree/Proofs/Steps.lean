import Mathlib.Logic.Relation

namespace ContextFree

open Relation

variable {L A : Type}

/-- The steps with the given labels lead from one state to another. -/
inductive Steps (step : L → A → A → Prop) : List L → A → A → Prop
  | nil (a : A) : Steps step [] a a
  | cons {l : L} {a b c : A} {labels : List L} :
      step l a b → Steps step labels b c → Steps step (l :: labels) a c

namespace Steps

variable {step : L → A → A → Prop}

theorem single {l : L} {a b : A} (h : step l a b) : Steps step [l] a b :=
  .cons h (.nil b)

theorem append {labels labels' : List L} {a b c : A} (h : Steps step labels a b)
    (h' : Steps step labels' b c) : Steps step (labels ++ labels') a c := by
  induction h with
  | nil a => exact h'
  | cons hs _ ih => exact .cons hs (ih h')

/-- Steps of one kind are steps of another if each single one is. -/
theorem map {M B : Type} {step' : M → B → B → Prop} (f : L → M) (state : A → B)
    (hstep : ∀ l a b, step l a b → step' (f l) (state a) (state b))
    {labels : List L} {a b : A} (h : Steps step labels a b) :
    Steps step' (labels.map f) (state a) (state b) := by
  induction h with
  | nil a => exact .nil _
  | cons hs _ ih => exact .cons (hstep _ _ _ hs) ih

theorem reflTransGen {r : A → A → Prop} (hstep : ∀ l a b, step l a b → r a b)
    {labels : List L} {a b : A} (h : Steps step labels a b) : ReflTransGen r a b := by
  induction h with
  | nil a => exact .refl
  | cons hs _ ih => exact .head (hstep _ _ _ hs) ih

end Steps

/-- The first list precedes the second at the first place where they differ, and neither ends before
that place. -/
inductive Earlier (before : L → L → Prop) : List L → List L → Prop
  | head {l l' : L} (labels labels' : List L) :
      before l l' → Earlier before (l :: labels) (l' :: labels')
  | tail (l : L) {labels labels' : List L} :
      Earlier before labels labels' → Earlier before (l :: labels) (l :: labels')

namespace Earlier

variable {before : L → L → Prop}

/-- Labels that are passed over do not change the order if every first difference is kept. -/
theorem filterMap {M : Type} {before' : M → M → Prop} (f : L → Option M)
    (hf : ∀ l l', before l l' → ∃ m m', f l = some m ∧ f l' = some m' ∧ before' m m')
    {labels labels' : List L} (h : Earlier before labels labels') :
    Earlier before' (labels.filterMap f) (labels'.filterMap f) := by
  induction h with
  | head labels labels' hb =>
    obtain ⟨m, m', hm, hm', hb'⟩ := hf _ _ hb
    rw [List.filterMap_cons_some hm, List.filterMap_cons_some hm']
    exact .head _ _ hb'
  | tail l _ ih =>
    cases hl : f l with
    | none =>
      rw [List.filterMap_cons_none hl, List.filterMap_cons_none hl]
      exact ih
    | some m =>
      rw [List.filterMap_cons_some hl, List.filterMap_cons_some hl]
      exact .tail m ih

/-- Other labels do not change the order if this keeps each first difference. -/
theorem map_of_mem {M : Type} {before' : M → M → Prop} (f : L → M) {labels labels' : List L}
    (h : Earlier before labels labels')
    (hf : ∀ l ∈ labels, ∀ l' ∈ labels', before l l' → before' (f l) (f l')) :
    Earlier before' (labels.map f) (labels'.map f) := by
  induction h with
  | head labels labels' hb =>
    exact .head _ _ (hf _ List.mem_cons_self _ List.mem_cons_self hb)
  | tail l _ ih =>
    exact .tail (f l) (ih fun a ha b hb =>
      hf a (List.mem_cons_of_mem _ ha) b (List.mem_cons_of_mem _ hb))

theorem asymm (hasymm : ∀ l l', before l l' → ¬ before l' l) {labels labels' : List L}
    (h : Earlier before labels labels') : ¬ Earlier before labels' labels := by
  induction h with
  | head labels labels' hb =>
    intro h'
    cases h' with
    | head _ _ hb' => exact hasymm _ _ hb hb'
    | tail _ _ => exact hasymm _ _ hb hb
  | tail l _ ih =>
    intro h'
    cases h' with
    | head _ _ hb' => exact hasymm _ _ hb' hb'
    | tail _ h' => exact ih h'

theorem trans (htrans : ∀ l l' l'', before l l' → before l' l'' → before l l'')
    {labels labels' labels'' : List L} (h : Earlier before labels labels')
    (h' : Earlier before labels' labels'') : Earlier before labels labels'' := by
  induction h generalizing labels'' with
  | head _ _ hb =>
    cases h' with
    | head _ _ hb' => exact .head _ _ (htrans _ _ _ hb hb')
    | tail _ _ => exact .head _ _ hb
  | tail l _ ih =>
    cases h' with
    | head _ _ hb' => exact .head _ _ hb'
    | tail _ h' => exact .tail l (ih h')

theorem append_left (front : List L) {labels labels' : List L} (h : Earlier before labels labels') :
    Earlier before (front ++ labels) (front ++ labels') := by
  induction front with
  | nil => exact h
  | cons l front ih => exact .tail l ih

theorem ne (hirrefl : ∀ l, ¬ before l l) {labels labels' : List L}
    (h : Earlier before labels labels') : labels ≠ labels' := by
  induction h with
  | head _ _ hb =>
    intro heq
    cases heq
    exact hirrefl _ hb
  | tail _ _ ih =>
    intro heq
    cases heq
    exact ih rfl

/-- What two lists have in common does not decide which is the earlier one. -/
theorem of_append_left (hirrefl : ∀ l, ¬ before l l) {front labels labels' : List L}
    (h : Earlier before (front ++ labels) (front ++ labels')) : Earlier before labels labels' := by
  induction front with
  | nil => exact h
  | cons l front ih =>
    cases h with
    | head _ _ hb => exact False.elim (hirrefl l hb)
    | tail _ h => exact ih h

end Earlier

/-- Labels that are good, and tried before all others that are. -/
structure First (before : L → L → Prop) (good : List L → Prop) (labels : List L) : Prop where
  holds : good labels
  least : ∀ other, good other → other = labels ∨ Earlier before labels other

theorem First.unique {before : L → L → Prop} (hasymm : ∀ l l', before l l' → ¬ before l' l)
    {good : List L → Prop} {labels labels' : List L} (h : First before good labels)
    (h' : First before good labels') : labels = labels' := by
  rcases h.least labels' h'.holds with heq | hearlier
  · exact heq.symm
  · rcases h'.least labels h.holds with heq | hearlier'
    · exact heq
    · exact False.elim (hearlier.asymm hasymm hearlier')

end ContextFree
