import ContextFree.Cycle
import Mathlib.Data.Finset.Card
import Mathlib.Data.Finset.Filter
import Mathlib.Logic.Relation
import Mathlib.Order.WellFounded

namespace ContextFree

open Relation

variable {V : Type} [DecidableEq V]

/-- An edge leads from the second node to the first one. -/
def Grouping.Successor (edges : Grouping V V) (w v : V) : Prop :=
  w ∈ edges.find v

namespace CycleSearch

variable {edges : Grouping V V}

/-- What one step does, by the roots and the path: the last node of the path is left, or an edge of
it is tried, or the next root if there is no path. -/
inductive Stepped (edges : Grouping V V) :
    CycleSearch V → CycleSearch V ⊕ Option (List V) → Prop
  | exhausted {marks : List (V × Mark)} : Stepped edges ⟨[], [], marks⟩ (.inr none)
  | pass {r : V} {rs : List V} {marks : List (V × Mark)} {m : Mark}
      (hr : marks.lookup r = some m) : Stepped edges ⟨r :: rs, [], marks⟩ (.inl ⟨rs, [], marks⟩)
  | root {r : V} {rs : List V} {marks : List (V × Mark)} (hr : marks.lookup r = none) :
      Stepped edges ⟨r :: rs, [], marks⟩ (.inl (enter ⟨rs, [], marks⟩ edges r))
  | finish {rs : List V} {v : V} {path : List (V × List V)} {marks : List (V × Mark)} :
      Stepped edges ⟨rs, (v, []) :: path, marks⟩ (.inl ⟨rs, path, (v, .finished) :: marks⟩)
  | close {rs : List V} {v w : V} {ws : List V} {path : List (V × List V)}
      {marks : List (V × Mark)} (hw : marks.lookup w = some .active) :
      Stepped edges ⟨rs, (v, w :: ws) :: path, marks⟩
        (.inr (some (close ((v, w :: ws) :: path) w)))
  | skip {rs : List V} {v w : V} {ws : List V} {path : List (V × List V)}
      {marks : List (V × Mark)} (hw : marks.lookup w = some .finished) :
      Stepped edges ⟨rs, (v, w :: ws) :: path, marks⟩ (.inl ⟨rs, (v, ws) :: path, marks⟩)
  | follow {rs : List V} {v w : V} {ws : List V} {path : List (V × List V)}
      {marks : List (V × Mark)} (hw : marks.lookup w = none) :
      Stepped edges ⟨rs, (v, w :: ws) :: path, marks⟩
        (.inl (enter ⟨rs, (v, ws) :: path, marks⟩ edges w))

theorem stepped_step (edges : Grouping V V) (s : CycleSearch V) :
    Stepped edges s (s.step edges) := by
  obtain ⟨roots, path, marks⟩ := s
  cases path with
  | nil =>
    cases roots with
    | nil => exact .exhausted
    | cons r rs =>
      simp only [step]
      split
      · rename_i m hr
        exact .pass hr
      · rename_i hr
        exact .root hr
  | cons top path =>
    obtain ⟨v, successors⟩ := top
    cases successors with
    | nil => exact .finish
    | cons w ws =>
      simp only [step]
      split
      · rename_i hw
        exact .close hw
      · rename_i hw
        exact .skip hw
      · rename_i hw
        exact .follow hw

theorem stepped_of_step {s : CycleSearch V} {out : CycleSearch V ⊕ Option (List V)}
    (h : s.step edges = out) : Stepped edges s out :=
  h ▸ stepped_step edges s

theorem lookup_mark (marks : List (V × Mark)) (v w : V) (m : Mark) :
    List.lookup w ((v, m) :: marks) = if w = v then some m else marks.lookup w := by
  rw [List.lookup_cons]
  by_cases h : w = v
  · simp [h]
  · rw [beq_false_of_ne h, if_neg h]

/-- The number of edges of nodes that have not been reached. -/
def waiting (groups : List (V × List V)) (marks : List (V × Mark)) : Nat :=
  ((groups.filter fun e => (marks.lookup e.1).isNone).flatMap Prod.snd).length

theorem waiting_cons (e : V × List V) (groups : List (V × List V)) (marks : List (V × Mark)) :
    waiting (e :: groups) marks =
      (if marks.lookup e.1 = none then e.2.length else 0) + waiting groups marks := by
  cases h : marks.lookup e.1 with
  | none => simp [waiting, h]
  | some m => simp [waiting, h]

theorem waiting_mark_le (groups : List (V × List V)) (marks : List (V × Mark)) (v : V) (m : Mark) :
    waiting groups ((v, m) :: marks) ≤ waiting groups marks := by
  induction groups with
  | nil => exact Nat.le_refl _
  | cons e rest ih =>
    rw [waiting_cons, waiting_cons, lookup_mark]
    by_cases h : e.1 = v
    · rw [if_pos h, if_neg (by simp)]
      omega
    · rw [if_neg h]
      omega

/-- A node that is reached takes its edges out of those that wait. -/
theorem waiting_enter (edges : Grouping V V) {marks : List (V × Mark)} {v : V}
    (hv : marks.lookup v = none) (m : Mark) :
    waiting edges.groups ((v, m) :: marks) + (edges.find v).length ≤
      waiting edges.groups marks := by
  unfold Grouping.find
  generalize edges.groups = groups
  induction groups with
  | nil => exact Nat.le_refl _
  | cons e rest ih =>
    rw [waiting_cons, waiting_cons, lookup_mark, List.find?_cons]
    by_cases h : e.1 = v
    · have hle := waiting_mark_le rest marks v m
      have hnone : marks.lookup e.1 = none := h ▸ hv
      rw [if_pos h, if_neg (by simp), if_pos hnone, decide_eq_true h]
      simp only [Option.map_some, Option.getD_some]
      omega
    · rw [if_neg h, decide_eq_false h]
      dsimp only
      omega

/-- A bound on the steps that are left. A root and an edge each cost at most the step that passes
over them and the step that leaves the node entered through them. -/
def potential (edges : Grouping V V) (s : CycleSearch V) : Nat :=
  2 * s.roots.length + s.path.length + 2 * (s.path.flatMap Prod.snd).length +
    2 * waiting edges.groups s.marks

theorem potential_step {s s' : CycleSearch V} (h : s.step edges = .inl s') :
    potential edges s' < potential edges s := by
  cases stepped_of_step h with
  | pass _ => simp [potential]
  | root hr =>
    have hw := waiting_enter edges hr .active
    simp only [potential, enter, List.length_cons, List.length_nil, List.flatMap_cons,
      List.flatMap_nil, List.length_append]
    omega
  | @finish rs v path marks =>
    have hw := waiting_mark_le edges.groups marks v .finished
    simp only [potential, List.length_cons, List.flatMap_cons, List.length_append,
      List.length_nil]
    omega
  | skip _ =>
    simp only [potential, List.length_cons, List.flatMap_cons, List.length_append]
    omega
  | follow hw =>
    have hw := waiting_enter edges hw .active
    simp only [potential, enter, List.length_cons, List.flatMap_cons, List.length_append]
    omega

/-- A search that comes to an answer, step by step. -/
inductive Ends (edges : Grouping V V) : CycleSearch V → Option (List V) → Prop
  | last {s : CycleSearch V} {answer : Option (List V)} (h : s.step edges = .inr answer) :
      Ends edges s answer
  | next {s s' : CycleSearch V} {answer : Option (List V)} (h : s.step edges = .inl s')
      (rest : Ends edges s' answer) : Ends edges s answer

theorem ends_run {s : CycleSearch V} {n : Nat} (hn : potential edges s < n) :
    Ends edges s (run edges n s) := by
  induction n generalizing s with
  | zero => omega
  | succ n ih =>
    rw [run]
    cases hs : s.step edges with
    | inl s' =>
      have hlt := potential_step hs
      exact .next hs (ih (by omega))
    | inr answer => exact .last hs

/-- The steps that a search is given are enough. -/
theorem ends_findCycle (roots : List V) (edges : Grouping V V) :
    Ends edges ⟨roots, [], []⟩ (findCycle roots edges) := by
  refine ends_run ?_
  simp only [potential, waiting, Grouping.size, List.length_nil, List.flatMap_nil,
    List.lookup_nil, Option.isNone_none, List.filter_true]
  omega

/-- Of each node on a path, the successors no longer to be tried lead to no endless walk, but for
the one through which the path goes on. -/
def Explored (edges : Grouping V V) : Option V → List (V × List V) → Prop
  | _, [] => True
  | above, (v, successors) :: path =>
    (∀ w, edges.Successor w v → w ∈ successors ∨ Acc edges.Successor w ∨ above = some w) ∧
      Explored edges (some v) path

theorem Explored.finish {v : V} (hv : Acc edges.Successor v) {path : List (V × List V)}
    (h : Explored edges (some v) path) : Explored edges none path := by
  cases path with
  | nil => trivial
  | cons top path =>
    refine ⟨fun w hw => ?_, h.2⟩
    rcases h.1 w hw with hm | hacc | heq
    · exact .inl hm
    · exact .inr (.inl hacc)
    · cases heq
      exact .inr (.inl hv)

/-- What a search keeps true on its way: the roots are not forgotten, active nodes are on the path,
and no endless walk begins at a finished node. -/
structure Sound (edges : Grouping V V) (roots : List V) (s : CycleSearch V) : Prop where
  roots : ∀ r ∈ roots, r ∈ s.roots ∨ s.mark? r ≠ none
  active : ∀ v, s.mark? v = some .active → v ∈ s.path.map Prod.fst
  finished : ∀ v, s.mark? v = some .finished → Acc edges.Successor v
  path : Explored edges none s.path

variable {roots : List V} {s s' : CycleSearch V}

theorem mark?_enter (s : CycleSearch V) (edges : Grouping V V) (v w : V) :
    (s.enter edges v).mark? w = if w = v then some .active else s.mark? w :=
  lookup_mark s.marks v w .active

theorem mark?_finish (s : CycleSearch V) (path : List (V × List V)) (v w : V) :
    mark? { s with path := path, marks := (v, .finished) :: s.marks } w =
      if w = v then some .finished else s.mark? w :=
  lookup_mark s.marks v w .finished

theorem sound_start (edges : Grouping V V) (roots : List V) : Sound edges roots ⟨roots, [], []⟩ :=
  ⟨fun _ hr => .inl hr, by simp [mark?], by simp [mark?], trivial⟩

/-- A node can be entered if the path leads to it and if no other root is forgotten. -/
theorem Sound.enter (h : Sound edges roots s) {rs : List V} {path : List (V × List V)} {v : V}
    (hroots : ∀ r ∈ s.roots, r = v ∨ r ∈ rs) (hnodes : path.map Prod.fst = s.path.map Prod.fst)
    (hpath : Explored edges (some v) path) :
    Sound edges roots (CycleSearch.enter { s with roots := rs, path := path } edges v) := by
  refine ⟨fun r hr => ?_, fun w hw => ?_, fun w hw => ?_, ⟨fun w hw => .inl hw, hpath⟩⟩
  · rw [mark?_enter]
    by_cases heq : r = v
    · exact .inr (by simp [heq])
    · rw [if_neg heq]
      exact (h.roots r hr).imp_left fun hm => (hroots r hm).resolve_left heq
  · rw [mark?_enter] at hw
    by_cases heq : w = v
    · rw [heq]
      exact List.mem_cons_self
    · rw [if_neg heq] at hw
      have hm := h.active w hw
      rw [← hnodes] at hm
      exact List.mem_cons_of_mem _ hm
  · rw [mark?_enter] at hw
    split at hw
    · cases hw
    · exact h.finished w hw

theorem Sound.finish (h : Sound edges roots s) {v : V} {path : List (V × List V)}
    (hs : s.path = (v, []) :: path) :
    Sound edges roots { s with path := path, marks := (v, .finished) :: s.marks } := by
  have hpath := h.path
  rw [hs] at hpath
  have hv : Acc edges.Successor v := by
    refine ⟨v, fun w hw => ?_⟩
    rcases hpath.1 w hw with hm | hacc | heq
    · cases hm
    · exact hacc
    · cases heq
  refine ⟨fun r hr => ?_, fun w hw => ?_, fun w hw => ?_, hpath.2.finish hv⟩
  · rw [mark?_finish]
    split
    · exact .inr (by simp)
    · exact h.roots r hr
  · rw [mark?_finish] at hw
    split at hw
    · cases hw
    · rename_i hne
      have hm := h.active w hw
      rw [hs] at hm
      exact (List.mem_cons.mp hm).resolve_left hne
  · rw [mark?_finish] at hw
    split at hw
    · rename_i heq
      exact heq ▸ hv
    · exact h.finished w hw

theorem Sound.step (h : Sound edges roots s) (hstep : s.step edges = .inl s') :
    Sound edges roots s' := by
  cases stepped_of_step hstep with
  | pass hm =>
    refine ⟨fun q hq => ?_, h.active, h.finished, h.path⟩
    rcases h.roots q hq with hin | hmark
    · rcases List.mem_cons.mp hin with rfl | hin
      · refine .inr (fun hnone => ?_)
        rw [mark?, hm] at hnone
        cases hnone
      · exact .inl hin
    · exact .inr hmark
  | root _ => exact h.enter (fun q hq => List.mem_cons.mp hq) rfl trivial
  | finish => exact h.finish rfl
  | skip hw =>
    refine ⟨h.roots, h.active, h.finished, fun x hx => ?_, h.path.2⟩
    rcases h.path.1 x hx with hm | hlater
    · rcases List.mem_cons.mp hm with rfl | hm
      · exact .inr (.inl (h.finished x hw))
      · exact .inl hm
    · exact .inr hlater
  | follow _ =>
    refine h.enter (fun _ hq => .inr hq) rfl ⟨fun x hx => ?_, h.path.2⟩
    rcases h.path.1 x hx with hm | hacc | heq
    · rcases List.mem_cons.mp hm with rfl | hm
      · exact .inr (.inr rfl)
      · exact .inl hm
    · exact .inr (.inl hacc)
    · cases heq

/-- A search that gives up has tried all roots. -/
theorem Sound.acc_of_step (h : Sound edges roots s) (hstep : s.step edges = .inr none) :
    ∀ r ∈ roots, Acc edges.Successor r := by
  cases stepped_of_step hstep with
  | @exhausted marks =>
    intro r hr
    have hmark := (h.roots r hr).resolve_left (by simp)
    cases hm : CycleSearch.mark? ⟨[], [], marks⟩ r with
    | none => exact False.elim (hmark hm)
    | some m =>
      cases m with
      | active => exact False.elim (by simpa using h.active r hm)
      | finished => exact h.finished r hm

theorem Sound.acc_of_ends (h : Sound edges roots s) (hends : Ends edges s none) :
    ∀ r ∈ roots, Acc edges.Successor r := by
  generalize hanswer : (none : Option (List V)) = answer at hends
  induction hends with
  | last hstep =>
    subst hanswer
    exact h.acc_of_step hstep
  | next hstep _ ih => exact ih (h.step hstep) hanswer

end CycleSearch

open CycleSearch in
/-- If the search finds no cycle from all nodes that have edges, no walk along the edges is endless.
-/
theorem wellFounded_of_findCycle {roots : List V} {edges : Grouping V V}
    (h : findCycle roots edges = none) (hkeys : ∀ v ∈ edges.keys, v ∈ roots) :
    WellFounded edges.Successor := by
  have hends := ends_findCycle roots edges
  rw [h] at hends
  have hroots := (sound_start edges roots).acc_of_ends hends
  refine ⟨fun v => ⟨v, fun w hw => ?_⟩⟩
  have hkey : v ∈ edges.keys := by
    rw [Grouping.mem_keys_iff]
    exact List.ne_nil_of_mem hw
  exact (hroots v (hkeys v hkey)).inv hw

namespace Grouping

variable (edges : Grouping V V)

open Classical in
/-- The nodes from which a walk leads to a node. -/
noncomputable def above (v : V) : Finset V :=
  edges.keys.toFinset.filter fun k => TransGen edges.Successor v k

/-- The number of nodes from which a walk leads to a node. -/
noncomputable def level (v : V) : Nat :=
  (edges.above v).card

variable {edges}

theorem mem_above {v k : V} :
    k ∈ edges.above v ↔ k ∈ edges.keys ∧ TransGen edges.Successor v k := by
  simp [above]

theorem level_le (v : V) : edges.level v ≤ edges.keys.toFinset.card :=
  Finset.card_le_card fun _ hk => List.mem_toFinset.mpr (mem_above.mp hk).1

/-- Levels grow along the edges if no walk is endless. -/
theorem level_lt (hwf : WellFounded edges.Successor) {v w : V} (h : edges.Successor w v) :
    edges.level v < edges.level w := by
  have hkey : v ∈ edges.keys := by
    rw [mem_keys_iff]
    exact List.ne_nil_of_mem h
  have hv : v ∈ edges.above w := mem_above.mpr ⟨hkey, .single h⟩
  refine Finset.card_lt_card (Finset.ssubset_iff_subset_ne.mpr ⟨fun k hk => ?_, fun heq => ?_⟩)
  · obtain ⟨hk, hwalk⟩ := mem_above.mp hk
    exact mem_above.mpr ⟨hk, .head h hwalk⟩
  · rw [← heq] at hv
    exact hwf.transGen.irrefl.irrefl v (mem_above.mp hv).2

end Grouping

end ContextFree
