import ContextFree.Grammar.Nullable
import Mathlib.Data.List.Perm.Subperm

namespace ContextFree

variable {V T : Type} [DecidableEq V]

theorem Rule.length_le_learn (known : List V) (r : Rule V T) :
    known.length ≤ (r.learn known).length := by
  unfold Rule.learn
  split
  · exact Nat.le_refl _
  · split <;> simp

/-- A rule that teaches nothing new leaves the known nonterminals as they are. -/
theorem Rule.learn_eq_of_length {known : List V} {r : Rule V T}
    (h : (r.learn known).length = known.length) : r.learn known = known := by
  unfold Rule.learn at h ⊢
  split
  · rfl
  · rename_i hm
    rw [if_neg hm] at h
    split
    · rename_i hb
      simp [hb] at h
    · rfl

theorem Rule.mem_of_learn_eq {known : List V} {r : Rule V T} (h : r.learn known = known)
    (hbody : r.body.all (Symbol.vanishes known)) : r.head ∈ known := by
  unfold Rule.learn at h
  rw [if_pos hbody] at h
  split at h
  · assumption
  · rw [← h]
    exact List.mem_append_right _ List.mem_cons_self

theorem Rule.mem_learn {known : List V} {r : Rule V T} {v : V} (h : v ∈ r.learn known) :
    v ∈ known ∨ v = r.head ∧ r.body.all (Symbol.vanishes known) := by
  unfold Rule.learn at h
  split at h
  · exact .inl h
  · split at h
    · rename_i hbody
      rw [List.mem_append, List.mem_singleton] at h
      exact h.imp_right fun hv => ⟨hv, hbody⟩
    · exact .inl h

/-- The head of every production whose body vanishes is known. -/
def Grammar.Closed (g : Grammar V T) (known : List V) : Prop :=
  ∀ p ∈ g.productions, p.body.all (Symbol.vanishes known) → p.head ∈ known

/-- What a search for vanishing nonterminals knows is a list of distinct heads. -/
structure Grammar.Heads (g : Grammar V T) (known : List V) : Prop where
  nodup : known.Nodup
  subset : known ⊆ g.productions.map fun p => p.head

namespace Grammar

section Pass

variable (productions : List (Production V T)) (known : List V)

theorem length_le_foldl_learn :
    known.length ≤ (productions.foldl (fun known p => p.learn known) known).length := by
  induction productions generalizing known with
  | nil => exact Nat.le_refl _
  | cons p rest ih =>
    exact Nat.le_trans (Rule.length_le_learn known p.toRule) (ih (p.learn known))

/-- A pass that learns nothing has found nothing to learn in any production. -/
theorem learn_eq_of_foldl_length
    (h : (productions.foldl (fun known p => p.learn known) known).length = known.length) :
    ∀ p ∈ productions, p.learn known = known := by
  induction productions generalizing known with
  | nil => simp
  | cons p rest ih =>
    rw [List.foldl_cons] at h
    have hle := Rule.length_le_learn known p.toRule
    have hrest := length_le_foldl_learn rest (p.learn known)
    have hp : p.learn known = known := Rule.learn_eq_of_length (by omega)
    rw [hp] at h
    intro q hq
    rcases List.mem_cons.mp hq with rfl | hq
    · exact hp
    · exact ih known h q hq

end Pass

variable {g : Grammar V T} {known : List V}

theorem learnAll_eq_of_length (h : (g.learnAll known).length = known.length) :
    g.learnAll known = known := by
  have hnone := learn_eq_of_foldl_length g.productions known h
  refine List.foldlRecOn (motive := fun found => found = known) g.productions _ rfl ?_
  intro found hfound p hp
  rw [hfound]
  exact hnone p hp

section Induction

variable {inv : List V → Prop}

/-- What every single production keeps, a pass keeps. -/
theorem learnAll_induction
    (hlearn : ∀ known, inv known → ∀ p ∈ g.productions, inv (p.learn known)) (h : inv known) :
    inv (g.learnAll known) :=
  List.foldlRecOn g.productions _ h hlearn

theorem passes_induction
    (hlearn : ∀ known, inv known → ∀ p ∈ g.productions, inv (p.learn known)) (h : inv known)
    (n : Nat) : inv (g.passes n known) := by
  induction n generalizing known with
  | zero => exact h
  | succ n ih =>
    rw [passes]
    split
    · exact h
    · exact ih (learnAll_induction hlearn h)

end Induction

theorem Heads.learn (h : g.Heads known) {p : Production V T} (hp : p ∈ g.productions) :
    g.Heads (p.learn known) := by
  refine ⟨Rule.nodup_learn h.nodup p.toRule, ?_⟩
  intro v hv
  rcases Rule.mem_learn hv with hv | ⟨rfl, _⟩
  · exact h.subset hv
  · exact List.mem_map.mpr ⟨p, hp, rfl⟩

theorem Heads.learnAll (h : g.Heads known) : g.Heads (g.learnAll known) :=
  learnAll_induction (fun _ h _ hp => h.learn hp) h

theorem Heads.passes (h : g.Heads known) (n : Nat) : g.Heads (g.passes n known) :=
  passes_induction (fun _ h _ hp => h.learn hp) h n

omit [DecidableEq V] in
theorem heads_nil (g : Grammar V T) : g.Heads [] :=
  ⟨List.nodup_nil, List.nil_subset _⟩

omit [DecidableEq V] in
theorem Heads.length_le (h : g.Heads known) : known.length ≤ g.productions.length := by
  simpa using (h.nodup.subperm h.subset).length_le

/-- Passes that are not bounded, but go on until one of them learns nothing, come to an end. -/
inductive Settles (g : Grammar V T) : List V → List V → Prop
  | last {known : List V} (h : (g.learnAll known).length = known.length) :
      Settles g known (g.learnAll known)
  | again {known found : List V} (h : (g.learnAll known).length ≠ known.length)
      (hrest : Settles g (g.learnAll known) found) : Settles g known found

theorem Settles.unique {found found' : List V} (h : g.Settles known found)
    (h' : g.Settles known found') : found = found' := by
  induction h with
  | last hlength =>
    cases h' with
    | last _ => rfl
    | again hnot _ => exact False.elim (hnot hlength)
  | again hnot _ ih =>
    cases h' with
    | last hlength => exact False.elim (hnot hlength)
    | again _ hrest => exact ih hrest

theorem Settles.of_length (h : (g.learnAll known).length = known.length) :
    g.Settles known known := by
  have hsettles := Settles.last h
  rwa [learnAll_eq_of_length h] at hsettles

/-- No more passes are needed than there are productions, less the heads that are known. -/
theorem settles_passes (h : g.Heads known) (n : Nat)
    (hn : g.productions.length ≤ known.length + n) : g.Settles known (g.passes n known) := by
  induction n generalizing known with
  | zero =>
    -- As many heads are known as there are productions, so a further pass learns nothing.
    have hle := h.learnAll.length_le
    have hge : known.length ≤ (g.learnAll known).length := length_le_foldl_learn _ _
    exact .of_length (by omega)
  | succ n ih =>
    have hle : known.length ≤ (g.learnAll known).length := length_le_foldl_learn _ _
    rw [Grammar.passes]
    by_cases hlength : (g.learnAll known).length = known.length
    · rw [if_pos hlength]
      exact .of_length hlength
    · rw [if_neg hlength]
      exact .again hlength (ih h.learnAll (by omega))

/-- The bound on the number of passes does not cut the search short. -/
theorem settles_nullable (g : Grammar V T) : g.Settles [] g.nullable :=
  settles_passes g.heads_nil _ (by simp)

theorem Settles.closed {found : List V} (h : g.Settles known found) : g.Closed found := by
  induction h with
  | last hlength =>
    intro p hp hbody
    rw [learnAll_eq_of_length hlength] at hbody ⊢
    exact Rule.mem_of_learn_eq (learn_eq_of_foldl_length _ _ hlength p hp) hbody
  | again _ _ ih => exact ih

/-- The nonterminals that are found to derive the empty string are closed. -/
theorem closed_nullable (g : Grammar V T) : g.Closed g.nullable :=
  g.settles_nullable.closed

end Grammar

end ContextFree
