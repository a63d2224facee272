import ContextFree.Proofs.Checks
import ContextFree.Proofs.Circuit
import ContextFree.Proofs.Rewriting

namespace ContextFree

open Relation

variable {V T : Type}

namespace Grammar

/-- Some nonterminal can be rewritten, once or more often, into just itself. -/
def Cyclic (g : Grammar V T) : Prop :=
  ∃ v, TransGen g.Rewrites [.nonterminal v] [.nonterminal v]

/-- The second nonterminal alone makes up a body of the first one. -/
def Unit (g : Grammar V T) (v w : V) : Prop :=
  ∃ p ∈ g.productions, p.head = v ∧ p.body = [.nonterminal w]

variable {g : Grammar V T}

theorem Unit.rewrites {v w : V} (h : g.Unit v w) :
    g.Rewrites [.nonterminal v] [.nonterminal w] := by
  obtain ⟨p, hp, rfl, hbody⟩ := h
  exact hbody ▸ rewrites_body hp

/-- Without empty bodies, a string of one symbol comes only from a nonterminal. -/
theorem Rewrites.to_singleton {form : List (Symbol V T)} {s : Symbol V T}
    (h : g.Rewrites form [s]) (hbodies : ∀ p ∈ g.productions, p.body ≠ []) :
    ∃ p ∈ g.productions, form = [.nonterminal p.head] ∧ p.body = [s] := by
  obtain ⟨n, front, back, p, hp, _, rfl, hform⟩ := h
  obtain ⟨r, rest, hbody⟩ := List.exists_cons_of_ne_nil (hbodies p hp)
  rw [hbody] at hform
  cases front with
  | cons r front => simp at hform
  | nil =>
    obtain ⟨rfl, hrest⟩ := List.cons.inj hform
    obtain ⟨rfl, rfl⟩ := List.append_eq_nil_iff.mp hrest.symm
    exact ⟨p, hp, rfl, hbody⟩

/-- The first production with a property has the lowest number of all that have it. -/
theorem number_le_of_find? {P : Production V T → Bool} {p : Production V T}
    (h : g.productions.find? P = some p) : ∀ q ∈ g.productions, P q → p.number ≤ q.number := by
  obtain ⟨_, before, after, heq, hbefore⟩ := List.find?_eq_some_iff_append.mp h
  have hsorted := g.pairwise_number
  rw [heq] at hsorted ⊢
  intro q hq hP
  rcases List.mem_append.mp hq with hq | hq
  · have hnot := hbefore q hq
    simp [hP] at hnot
  · rcases List.mem_cons.mp hq with rfl | hq
    · exact Nat.le_refl _
    · exact Nat.le_of_lt ((List.pairwise_cons.mp (List.pairwise_append.mp hsorted).2.1).1 q hq)

variable [DecidableEq V]

/-- Without empty bodies, a nonterminal that is derived is reached along unit productions. -/
theorem transGen_successor_of_singleton (hbodies : ∀ p ∈ g.productions, p.body ≠ []) {v w : V}
    {form : List (Symbol V T)} (h : TransGen g.Rewrites [.nonterminal v] form)
    (hform : form = [.nonterminal w]) : TransGen g.unitEdges.Successor w v := by
  induction h generalizing w with
  | single h =>
    subst hform
    obtain ⟨p, hp, hv, hbody⟩ := h.to_singleton hbodies
    cases hv
    exact .single (successor_unitEdges.mpr ⟨p, hp, rfl, hbody⟩)
  | tail _ hlast ih =>
    subst hform
    obtain ⟨p, hp, hprevious, hbody⟩ := hlast.to_singleton hbodies
    exact .head (successor_unitEdges.mpr ⟨p, hp, rfl, hbody⟩) (ih hprevious)

/-- In a cyclic grammar some walk along unit productions comes back to where it began. -/
theorem Cyclic.not_wellFounded (h : g.Cyclic) (hbodies : ∀ p ∈ g.productions, p.body ≠ []) :
    ¬ WellFounded g.unitEdges.Successor := by
  obtain ⟨v, hv⟩ := h
  intro hwf
  exact hwf.transGen.irrefl.irrefl v (transGen_successor_of_singleton hbodies hv rfl)

omit [DecidableEq V] in
theorem cyclic_of_circuit {cycle : List V} (h : Circuit g.Unit cycle) : g.Cyclic := by
  obtain ⟨v, hv⟩ := h.transGen
  exact ⟨v, hv.lift (fun v => [Symbol.nonterminal v]) fun _ _ hunit => Unit.rewrites hunit⟩

section Check

variable {start : V}

theorem checkBottomUp_of_emptyBody (hstart : g.definedStart = .ok start) {p : Production V T}
    (h : g.productions.find? (fun p => p.body.isEmpty) = some p) :
    g.checkBottomUp = .error (.emptyBody p.number) := by
  simp only [checkBottomUp, hstart, h]
  rfl

theorem checkBottomUp_of_bodies (hstart : g.definedStart = .ok start)
    (hbodies : ∀ p ∈ g.productions, p.body ≠ []) :
    g.checkBottomUp =
      match findCycle g.heads g.unitEdges with
      | some cycle => .error (.unitCycle cycle)
      | none => .ok start := by
  have hnone : g.productions.find? (fun p => p.body.isEmpty) = none := by
    simpa [List.find?_eq_none] using hbodies
  simp only [checkBottomUp, hstart, hnone]
  rfl

/-- An empty body is named exactly if it is the one of lowest number. -/
theorem checkBottomUp_eq_emptyBody (hstart : g.definedStart = .ok start) (n : Nat) :
    g.checkBottomUp = .error (.emptyBody n) ↔
      (∃ p ∈ g.productions, p.number = n ∧ p.body = []) ∧
        ∀ p ∈ g.productions, p.body = [] → n ≤ p.number := by
  constructor
  · intro h
    cases hfind : g.productions.find? (fun p => p.body.isEmpty) with
    | some p =>
      rw [checkBottomUp_of_emptyBody hstart hfind] at h
      cases h
      refine ⟨⟨p, List.mem_of_find?_eq_some hfind, rfl, by simpa using List.find?_some hfind⟩, ?_⟩
      exact fun q hq hnil => number_le_of_find? hfind q hq (by simp [hnil])
    | none =>
      rw [checkBottomUp_of_bodies hstart (by simpa [List.find?_eq_none] using hfind)] at h
      split at h <;> cases h
  · intro h
    obtain ⟨⟨q, hq, rfl, hnil⟩, hleast⟩ := h
    obtain ⟨p, hfind⟩ : ∃ p, g.productions.find? (fun p => p.body.isEmpty) = some p :=
      Option.isSome_iff_exists.mp (List.find?_isSome.mpr ⟨q, hq, by simp [hnil]⟩)
    have hle : p.number ≤ q.number := number_le_of_find? hfind q hq (by simp [hnil])
    have hge : q.number ≤ p.number :=
      hleast p (List.mem_of_find?_eq_some hfind) (by simpa using List.find?_some hfind)
    rw [checkBottomUp_of_emptyBody hstart hfind, Nat.le_antisymm hle hge]

/-- A grammar whose start has productions is ruled out for an empty body exactly if it has one, and
the one of lowest number is named. Without empty bodies it is ruled out for a cycle of unit
productions exactly if some nonterminal derives itself, and otherwise its start is returned. The
cycle that is shown leads along unit productions from a nonterminal back to itself, and through no
other one twice. -/
theorem checkBottomUp_exact (hstart : g.start = some start)
    (hdefined : ∃ p ∈ g.productions, p.head = start) :
    (∀ n, g.checkBottomUp = .error (.emptyBody n) ↔
      (∃ p ∈ g.productions, p.number = n ∧ p.body = []) ∧
        ∀ p ∈ g.productions, p.body = [] → n ≤ p.number) ∧
      ((∀ p ∈ g.productions, p.body ≠ []) →
        ((∃ cycle, g.checkBottomUp = .error (.unitCycle cycle)) ↔ g.Cyclic) ∧
          (∀ cycle, g.checkBottomUp = .error (.unitCycle cycle) → Circuit g.Unit cycle) ∧
          (¬ g.Cyclic → g.checkBottomUp = .ok start)) := by
  have hok := definedStart_of_start hstart hdefined
  refine ⟨checkBottomUp_eq_emptyBody hok, fun hbodies => ?_⟩
  have hcheck := checkBottomUp_of_bodies hok hbodies
  cases hfind : findCycle g.heads g.unitEdges with
  | none =>
    rw [hfind] at hcheck
    have hacyclic : ¬ g.Cyclic := fun h =>
      h.not_wellFounded hbodies (bottomUpReady_of_check hcheck).unit
    simp [hcheck, hacyclic]
  | some cycle =>
    rw [hfind] at hcheck
    have hcircuit : Circuit g.Unit cycle :=
      (circuit_of_findCycle hfind).imp fun _ _ => successor_unitEdges.mp
    have hcyclic : g.Cyclic := cyclic_of_circuit hcircuit
    refine ⟨⟨fun _ => hcyclic, fun _ => ⟨cycle, hcheck⟩⟩, fun cycle' h => ?_, fun h => ?_⟩
    · rw [hcheck] at h
      cases h
      exact hcircuit
    · exact False.elim (h hcyclic)

end Check

/-- A grammar in which `A`, `B` and `C` stand for one another, though the start needs none of
them. -/
def detachedCycle : Grammar Char Char :=
  .ofRules none [⟨'S', [.terminal 's', .nonterminal 'S']⟩, ⟨'S', [.terminal 's']⟩,
    ⟨'A', [.nonterminal 'B']⟩, ⟨'B', [.terminal 'b']⟩, ⟨'B', [.nonterminal 'C']⟩,
    ⟨'C', [.nonterminal 'A', .nonterminal 'B']⟩, ⟨'C', [.nonterminal 'A']⟩]

theorem checkBottomUp_exact_detachedCycle :
    detachedCycle.start = some 'S' ∧ (∃ p ∈ detachedCycle.productions, p.head = 'S') ∧
      (∀ p ∈ detachedCycle.productions, p.body ≠ []) ∧
      detachedCycle.checkBottomUp = .error (.unitCycle ['A', 'B', 'C', 'A']) ∧
      detachedCycle.Cyclic ∧ Circuit detachedCycle.Unit ['A', 'B', 'C', 'A'] := by
  have hstart : detachedCycle.start = some 'S' := rfl
  have hdefined : ∃ p ∈ detachedCycle.productions, p.head = 'S' := ⟨_, List.mem_cons_self, rfl⟩
  have hbodies : ∀ p ∈ detachedCycle.productions, p.body ≠ [] := by decide
  have hcheck : detachedCycle.checkBottomUp = .error (.unitCycle ['A', 'B', 'C', 'A']) := by rfl
  obtain ⟨_, hcycles⟩ := checkBottomUp_exact hstart hdefined
  obtain ⟨hiff, hcircuit, _⟩ := hcycles hbodies
  exact ⟨hstart, hdefined, hbodies, hcheck, hiff.mp ⟨_, hcheck⟩, hcircuit _ hcheck⟩

end Grammar

end ContextFree
