import ContextFree.Proofs.CycleSearch
import Mathlib.Data.List.Chain

namespace ContextFree

open Relation

variable {V : Type}

/-- A walk that ends where it begins and is nowhere else twice. -/
def Circuit (r : V → V → Prop) (cycle : List V) : Prop :=
  ∃ v between, cycle = v :: between ++ [v] ∧ (v :: between).Nodup ∧ cycle.IsChain r

namespace Circuit

variable {r r' : V → V → Prop} {cycle : List V}

theorem imp (hr : ∀ v w, r v w → r' v w) (h : Circuit r cycle) : Circuit r' cycle := by
  obtain ⟨v, between, hcycle, hnodup, hchain⟩ := h
  exact ⟨v, between, hcycle, hnodup, hchain.imp fun {x y} => hr x y⟩

theorem transGen (h : Circuit r cycle) : ∃ v, TransGen r v v := by
  obtain ⟨v, between, rfl, _, hchain⟩ := h
  refine ⟨v, ?_⟩
  cases between with
  | nil => exact .single hchain.rel
  | cons u rest =>
    have hfirst : r v u := hchain.rel
    have hrest : (u :: (rest ++ [v])).IsChain r := hchain.tail
    exact .head' hfirst (List.relationReflTransGen_of_exists_isChain_cons _ hrest (by simp))

end Circuit

variable [DecidableEq V] {edges : Grouping V V}

namespace CycleSearch

variable {s s' : CycleSearch V} {cycle : List V}

/-- The path of a search is a walk along the edges through active nodes, none of them twice. What is
still to be tried at a node are successors of it. -/
structure Walks (edges : Grouping V V) (s : CycleSearch V) : Prop where
  nodup : (s.path.map Prod.fst).Nodup
  active : ∀ v ∈ s.path.map Prod.fst, s.mark? v = some .active
  chain : (s.path.map Prod.fst).IsChain edges.Successor
  successors : ∀ e ∈ s.path, ∀ w ∈ e.2, edges.Successor w e.1

theorem walks_start (edges : Grouping V V) (roots : List V) : Walks edges ⟨roots, [], []⟩ :=
  ⟨List.nodup_nil, by simp, .nil, by simp⟩

/-- A node that has not been reached can be entered from the last node of the path. -/
theorem Walks.enter (h : Walks edges s) {v : V} (hv : s.mark? v = none)
    (hlast : ∀ u ∈ (s.path.map Prod.fst).head?, edges.Successor v u) :
    Walks edges (s.enter edges v) := by
  have hnew : v ∉ s.path.map Prod.fst := by
    intro hm
    have hactive := h.active v hm
    rw [hv] at hactive
    cases hactive
  refine ⟨List.nodup_cons.mpr ⟨hnew, h.nodup⟩, fun w hw => ?_, h.chain.cons hlast, ?_⟩
  · rw [mark?_enter]
    rcases List.mem_cons.mp hw with rfl | hold
    · exact if_pos rfl
    · have hne : w ≠ v := by
        rintro rfl
        exact hnew hold
      rw [if_neg hne]
      exact h.active w hold
  · intro e he
    rcases List.mem_cons.mp he with rfl | he
    · exact fun w hw => hw
    · exact h.successors e he

/-- An edge that leads to a finished node is passed over. -/
theorem Walks.skip (h : Walks edges s) {v w : V} {ws : List V} {path : List (V × List V)}
    (hs : s.path = (v, w :: ws) :: path) : Walks edges { s with path := (v, ws) :: path } := by
  obtain ⟨hnodup, hactive, hchain, hsuccessors⟩ := h
  rw [hs] at hnodup hactive hchain hsuccessors
  refine ⟨hnodup, hactive, hchain, fun e he => ?_⟩
  rcases List.mem_cons.mp he with rfl | he
  · exact fun x hx => hsuccessors _ List.mem_cons_self x (List.mem_cons_of_mem _ hx)
  · exact hsuccessors e (List.mem_cons_of_mem _ he)

theorem Walks.finish (h : Walks edges s) {v : V} {path : List (V × List V)}
    (hs : s.path = (v, []) :: path) :
    Walks edges { s with path := path, marks := (v, .finished) :: s.marks } := by
  obtain ⟨hnodup, hactive, hchain, hsuccessors⟩ := h
  rw [hs] at hnodup hactive hchain hsuccessors
  obtain ⟨hnew, hnodup⟩ := List.nodup_cons.mp hnodup
  refine ⟨hnodup, fun w hw => ?_, hchain.tail,
    fun e he => hsuccessors e (List.mem_cons_of_mem _ he)⟩
  have hne : w ≠ v := by
    rintro rfl
    exact hnew hw
  rw [mark?_finish, if_neg hne]
  exact hactive w (List.mem_cons_of_mem _ hw)

theorem Walks.step (h : Walks edges s) (hstep : s.step edges = .inl s') : Walks edges s' := by
  cases stepped_of_step hstep with
  | pass _ => exact ⟨h.nodup, h.active, h.chain, h.successors⟩
  | @root r rs marks hr =>
    have hrest : Walks edges ⟨rs, [], marks⟩ := ⟨h.nodup, h.active, h.chain, h.successors⟩
    exact hrest.enter hr (by simp)
  | finish => exact h.finish rfl
  | skip _ => exact h.skip rfl
  | @follow rs v w ws path marks hw =>
    refine (h.skip rfl).enter hw fun u hu => ?_
    cases hu
    exact h.successors _ List.mem_cons_self w List.mem_cons_self

/-- An edge back to a node of the path closes a circuit. -/
theorem Walks.close (h : Walks edges s) {v w : V} {ws : List V} {path : List (V × List V)}
    (hs : s.path = (v, w :: ws) :: path) (hw : w ∈ s.path.map Prod.fst) :
    Circuit (fun v w => edges.Successor w v) (close s.path w) := by
  have hedge : edges.Successor w v := by
    refine h.successors (v, w :: ws) ?_ w List.mem_cons_self
    rw [hs]
    exact List.mem_cons_self
  have hlast : (s.path.map Prod.fst).reverse.getLast? = some v := by
    rw [List.getLast?_reverse, hs]
    rfl
  have hnodup := List.nodup_reverse.mpr h.nodup
  have hchain := List.isChain_reverse.mpr h.chain
  -- From the root on, the path leads to the node, and from there to its end.
  obtain ⟨before, between, hpath⟩ := List.append_of_mem (List.mem_reverse.mpr hw)
  unfold CycleSearch.close
  rw [hpath] at hnodup hchain hlast ⊢
  have hfirst : w ∉ before := fun hm =>
    (List.nodup_append.mp hnodup).2.2 w hm w List.mem_cons_self rfl
  have hdrop : (before ++ w :: between).dropWhile (· ≠ w) = w :: between := by
    rw [List.dropWhile_append_of_pos, List.dropWhile_cons_of_neg (by simp)]
    intro u hu
    rw [decide_eq_true_iff]
    rintro rfl
    exact hfirst hu
  rw [hdrop]
  refine ⟨w, between, rfl, (List.nodup_append.mp hnodup).2.1, ?_⟩
  refine hchain.right_of_append.append (.singleton w) fun x hx y hy => ?_
  rw [List.getLast?_append_cons] at hlast
  rw [hlast] at hx
  cases hx
  cases hy
  exact hedge

theorem Walks.circuit_of_step {roots : List V} (h : Walks edges s) (hsound : Sound edges roots s)
    (hstep : s.step edges = .inr (some cycle)) :
    Circuit (fun v w => edges.Successor w v) cycle := by
  cases stepped_of_step hstep with
  | close hw => exact h.close rfl (hsound.active _ hw)

theorem Walks.circuit_of_ends {roots : List V} (h : Walks edges s) (hsound : Sound edges roots s)
    (hends : Ends edges s (some cycle)) : Circuit (fun v w => edges.Successor w v) cycle := by
  generalize hanswer : some cycle = answer at hends
  induction hends with
  | last hstep =>
    subst hanswer
    exact h.circuit_of_step hsound hstep
  | next hstep _ ih => exact ih (h.step hstep) (hsound.step hstep) hanswer

end CycleSearch

/-- A cycle that is found is a circuit of the graph. -/
theorem circuit_of_findCycle {roots cycle : List V} (h : findCycle roots edges = some cycle) :
    Circuit (fun v w => edges.Successor w v) cycle := by
  have hends := CycleSearch.ends_findCycle roots edges
  rw [h] at hends
  exact (CycleSearch.walks_start edges roots).circuit_of_ends
    (CycleSearch.sound_start edges roots) hends

end ContextFree
