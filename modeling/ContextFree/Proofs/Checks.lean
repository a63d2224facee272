import ContextFree.Grammar.Defect
import ContextFree.Proofs.CycleSearch
import ContextFree.Proofs.Vanishing

namespace ContextFree

variable {V T : Type} [DecidableEq V]

namespace Grammar

variable {g : Grammar V T} {v w start : V}

theorem start_of_definedStart (h : g.definedStart = .ok start) : g.start = some start := by
  unfold definedStart at h
  split at h
  · cases h
  · rename_i s hs
    rw [hs]
    split at h
    · cases h
    · split at h
      · cases h
        rfl
      · cases h

theorem definedStart_of_start (hstart : g.start = some start)
    (hdefined : ∃ p ∈ g.productions, p.head = start) : g.definedStart = .ok start := by
  have hsome : g.productions.isEmpty = false := by
    obtain ⟨p, hp, _⟩ := hdefined
    simpa using List.ne_nil_of_mem hp
  simp only [definedStart, hstart, hsome, isDefined_iff.mpr hdefined, Bool.false_eq_true, if_false,
    if_true]

/-- Edges that begin at heads lead to no endless walk if the search from all heads finds no cycle.
-/
theorem wellFounded_of_heads {edges : Grouping V V} (h : findCycle g.heads edges = none)
    (hheads : ∀ v w, edges.Successor w v → ∃ p ∈ g.productions, p.head = v) :
    WellFounded edges.Successor := by
  apply wellFounded_of_findCycle h
  intro v hv
  rw [Grouping.mem_keys_iff] at hv
  obtain ⟨w, hw⟩ := List.exists_mem_of_ne_nil _ hv
  exact mem_heads.mpr (hheads v w hw)

theorem successor_leftCornerEdges :
    g.leftCornerEdges.Successor w v ↔
      ∃ p ∈ g.productions, p.head = v ∧ w ∈ leftCorners g.nullable p.body := by
  simp only [Grouping.Successor, leftCornerEdges, Grouping.find_ofList, List.mem_map,
    List.mem_filter, List.mem_flatMap, decide_eq_true_eq]
  constructor
  · intro h
    obtain ⟨e, ⟨⟨p, hp, x, hx, rfl⟩, hv⟩, rfl⟩ := h
    exact ⟨p, hp, hv, hx⟩
  · intro h
    obtain ⟨p, hp, hv, hw⟩ := h
    exact ⟨_, ⟨⟨p, hp, w, hw, rfl⟩, hv⟩, rfl⟩

theorem successor_unitEdges :
    g.unitEdges.Successor w v ↔ ∃ p ∈ g.productions, p.head = v ∧ p.body = [.nonterminal w] := by
  simp only [Grouping.Successor, unitEdges, Grouping.find_ofList, List.mem_map, List.mem_filter,
    List.mem_filterMap, decide_eq_true_eq, Option.map_eq_some_iff, Rule.unit?_eq_some]
  constructor
  · intro h
    obtain ⟨e, ⟨⟨p, hp, x, hx, rfl⟩, hv⟩, rfl⟩ := h
    exact ⟨p, hp, hv, hx⟩
  · intro h
    obtain ⟨p, hp, hv, hw⟩ := h
    exact ⟨_, ⟨⟨p, hp, w, hw, rfl⟩, hv⟩, rfl⟩

/-- What is known of a grammar that the check for top-down parsing accepts. -/
structure TopDownReady (g : Grammar V T) (start : V) : Prop where
  start_eq : g.start = some start
  leftCorner : WellFounded g.leftCornerEdges.Successor

/-- What is known of a grammar that the check for bottom-up parsing accepts. -/
structure BottomUpReady (g : Grammar V T) (start : V) : Prop where
  start_eq : g.start = some start
  body_ne_nil : ∀ p ∈ g.productions, p.body ≠ []
  unit : WellFounded g.unitEdges.Successor

theorem topDownReady_of_check (h : g.checkTopDown = .ok start) : g.TopDownReady start := by
  unfold checkTopDown at h
  cases hs : g.definedStart with
  | error defect =>
    rw [hs] at h
    cases h
  | ok s =>
    rw [hs] at h
    simp only [bind, Except.bind] at h
    split at h
    · cases h
    · rename_i hcycle
      cases h
      refine ⟨start_of_definedStart hs, wellFounded_of_heads hcycle fun v w hw => ?_⟩
      obtain ⟨p, hp, hv, _⟩ := successor_leftCornerEdges.mp hw
      exact ⟨p, hp, hv⟩

theorem bottomUpReady_of_check (h : g.checkBottomUp = .ok start) : g.BottomUpReady start := by
  unfold checkBottomUp at h
  cases hs : g.definedStart with
  | error defect =>
    rw [hs] at h
    cases h
  | ok s =>
    rw [hs] at h
    simp only [bind, Except.bind] at h
    split at h
    · cases h
    · rename_i hbodies
      split at h
      · cases h
      · rename_i hcycle
        cases h
        refine ⟨start_of_definedStart hs, fun p hp hnil => ?_,
          wellFounded_of_heads hcycle fun v w hw => ?_⟩
        · have hp' := List.find?_eq_none.mp hbodies p hp
          simp [hnil] at hp'
        · obtain ⟨p, hp, hv, _⟩ := successor_unitEdges.mp hw
          exact ⟨p, hp, hv⟩

end Grammar

end ContextFree
