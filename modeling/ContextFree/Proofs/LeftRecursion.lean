import ContextFree.Proofs.Checks
import ContextFree.Proofs.Circuit
import ContextFree.Proofs.Nullability

namespace ContextFree

open Relation

variable {V T : Type}

namespace Grammar

/-- Some nonterminal can be rewritten, once or more often, into a string that it begins itself. -/
def LeftRecursive (g : Grammar V T) : Prop :=
  ∃ v back, TransGen g.Rewrites [.nonterminal v] (.nonterminal v :: back)

/-- In some body of the first nonterminal the second one follows nothing but nonterminals that
derive the empty string. -/
def LeftCorner (g : Grammar V T) (v w : V) : Prop :=
  ∃ p ∈ g.productions, ∃ front back, p.head = v ∧ p.body = front ++ .nonterminal w :: back ∧
    ∀ s ∈ front, ∃ u, s = .nonterminal u ∧ g.Derives [.nonterminal u] []

variable {g : Grammar V T}

/-- A nonterminal can be rewritten so that a left corner of it comes first. -/
theorem LeftCorner.transGen_rewrites {v w : V} (h : g.LeftCorner v w) :
    ∃ back, TransGen g.Rewrites [.nonterminal v] (.nonterminal w :: back) := by
  obtain ⟨p, hp, front, back, rfl, hbody, hfront⟩ := h
  have hempty : g.Derives front [] := by
    apply Yields.derives (w := [])
    apply yields_nil_of_forall
    intro s hs
    obtain ⟨u, rfl, hu⟩ := hfront s hs
    exact Derives.yields (w := []) hu
  have hfirst := rewrites_body hp
  rw [hbody] at hfirst
  refine ⟨back, .head' hfirst ?_⟩
  have hrest := hempty.lift (fun form => form ++ .nonterminal w :: back) fun form form' hstep => by
    simpa using hstep.context [] (.nonterminal w :: back)
  exact hrest

theorem transGen_rewrites_of_leftCorner {v w : V} (h : TransGen g.LeftCorner v w) :
    ∃ back, TransGen g.Rewrites [.nonterminal v] (.nonterminal w :: back) := by
  induction h with
  | single h => exact h.transGen_rewrites
  | @tail u w _ hlast ih =>
    obtain ⟨back, hfirst⟩ := ih
    obtain ⟨back', hnext⟩ := hlast.transGen_rewrites
    refine ⟨back' ++ back, hfirst.trans ?_⟩
    exact hnext.lift (· ++ back) fun form form' hstep => by simpa using hstep.context [] back

variable [DecidableEq V]

section Corners

variable {known : List V} {v w : V} {form form' : List (Symbol V T)}

theorem mem_leftCorners_nonterminal :
    w ∈ leftCorners known (.nonterminal v :: form) ↔
      w = v ∨ v ∈ known ∧ w ∈ leftCorners known form := by
  rw [leftCorners, List.mem_cons]
  by_cases hv : v ∈ known <;> simp [hv]

/-- What begins a string made of two begins the first one, or the second one if all of the first
vanishes. -/
theorem mem_leftCorners_append :
    w ∈ leftCorners known (form ++ form') ↔
      w ∈ leftCorners known form ∨
        form.all (Symbol.vanishes known) ∧ w ∈ leftCorners known form' := by
  induction form with
  | nil => simp [leftCorners]
  | cons s form ih =>
    cases s with
    | terminal t => simp [leftCorners, Symbol.vanishes]
    | nonterminal v =>
      rw [List.cons_append, mem_leftCorners_nonterminal, mem_leftCorners_nonterminal, ih]
      simp only [List.all_cons, Symbol.vanishes, Bool.and_eq_true, decide_eq_true_eq]
      tauto

theorem exists_of_mem_leftCorners (h : w ∈ leftCorners known form) :
    ∃ front back, form = front ++ .nonterminal w :: back ∧
      front.all (Symbol.vanishes known) := by
  induction form with
  | nil => cases h
  | cons s form ih =>
    cases s with
    | terminal t => cases h
    | nonterminal v =>
      rcases mem_leftCorners_nonterminal.mp h with rfl | ⟨hv, h⟩
      · exact ⟨[], form, rfl, rfl⟩
      · obtain ⟨front, back, rfl, hfront⟩ := ih h
        exact ⟨.nonterminal v :: front, back, rfl, by simp [Symbol.vanishes, hv, hfront]⟩

end Corners

theorem leftCorner_of_successor {v w : V} (h : g.leftCornerEdges.Successor w v) :
    g.LeftCorner v w := by
  obtain ⟨p, hp, hv, hw⟩ := successor_leftCornerEdges.mp h
  obtain ⟨front, back, hbody, hfront⟩ := exists_of_mem_leftCorners hw
  refine ⟨p, hp, front, back, hv, hbody, fun s hs => ?_⟩
  have hs := List.all_eq_true.mp hfront s hs
  cases s with
  | terminal t => cases hs
  | nonterminal u => exact ⟨u, rfl, (g.vanish_nullable u (of_decide_eq_true hs)).derives⟩

/-- What begins a string behind a rewriting begins it before, or it is a left corner of what
does. -/
theorem Rewrites.leftCorner {form form' : List (Symbol V T)} (h : g.Rewrites form form') {w : V}
    (hw : w ∈ leftCorners g.nullable form') :
    w ∈ leftCorners g.nullable form ∨
      ∃ v ∈ leftCorners g.nullable form, g.leftCornerEdges.Successor w v := by
  obtain ⟨n, front, back, p, hp, _, rfl, rfl⟩ := h
  have hhead : front.all (Symbol.vanishes g.nullable) →
      p.head ∈ leftCorners g.nullable (front ++ .nonterminal p.head :: back) := fun hfront =>
    mem_leftCorners_append.mpr (.inr ⟨hfront, mem_leftCorners_nonterminal.mpr (.inl rfl)⟩)
  rw [List.append_assoc, mem_leftCorners_append, mem_leftCorners_append] at hw
  rcases hw with hw | ⟨hfront, hw | ⟨hbody, hw⟩⟩
  · exact .inl (mem_leftCorners_append.mpr (.inl hw))
  · exact .inr ⟨p.head, hhead hfront, successor_leftCornerEdges.mpr ⟨p, hp, rfl, hw⟩⟩
  · refine .inl (mem_leftCorners_append.mpr (.inr ⟨hfront, ?_⟩))
    exact mem_leftCorners_nonterminal.mpr (.inr ⟨g.closed_nullable p hp hbody, hw⟩)

/-- What begins a string that a nonterminal derives can be reached from it along left corners. -/
theorem transGen_successor_of_rewrites {v : V} {form : List (Symbol V T)}
    (h : TransGen g.Rewrites [.nonterminal v] form) {w : V}
    (hw : w ∈ leftCorners g.nullable form) : TransGen g.leftCornerEdges.Successor w v := by
  induction h generalizing w with
  | single h =>
    obtain ⟨p, hp, hv, rfl⟩ := h.of_nonterminal
    exact .single (successor_leftCornerEdges.mpr ⟨p, hp, hv, hw⟩)
  | tail _ hlast ih =>
    rcases hlast.leftCorner hw with hw | ⟨u, hu, hedge⟩
    · exact ih hw
    · exact .head hedge (ih hu)

/-- In a left-recursive grammar some walk along left corners comes back to where it began. -/
theorem LeftRecursive.not_wellFounded (h : g.LeftRecursive) :
    ¬ WellFounded g.leftCornerEdges.Successor := by
  obtain ⟨v, back, hv⟩ := h
  intro hwf
  have hloop := transGen_successor_of_rewrites hv (mem_leftCorners_nonterminal.mpr (.inl rfl))
  exact hwf.transGen.irrefl.irrefl v hloop

/-- A grammar whose start has productions is ruled out for left recursion exactly if some
nonterminal derives a string that begins with itself, and otherwise its start is returned. The cycle
that is shown leads along left corners from a nonterminal back to itself, and through no other one
twice. -/
theorem checkTopDown_exact {start : V} (hstart : g.start = some start)
    (hdefined : ∃ p ∈ g.productions, p.head = start) :
    ((∃ cycle, g.checkTopDown = .error (.leftRecursion cycle)) ↔ g.LeftRecursive) ∧
      (∀ cycle, g.checkTopDown = .error (.leftRecursion cycle) → Circuit g.LeftCorner cycle) ∧
      (¬ g.LeftRecursive → g.checkTopDown = .ok start) := by
  have hok := definedStart_of_start hstart hdefined
  cases hfind : findCycle g.heads g.leftCornerEdges with
  | none =>
    have hcheck : g.checkTopDown = .ok start := by
      simp only [checkTopDown, hok, hfind]
      rfl
    have hnone : ¬ g.LeftRecursive := fun h =>
      h.not_wellFounded (topDownReady_of_check hcheck).leftCorner
    simp [hcheck, hnone]
  | some cycle =>
    have hcheck : g.checkTopDown = .error (.leftRecursion cycle) := by
      simp only [checkTopDown, hok, hfind]
      rfl
    have hcircuit : Circuit g.LeftCorner cycle :=
      (circuit_of_findCycle hfind).imp fun _ _ => leftCorner_of_successor
    have hrecursive : g.LeftRecursive := by
      obtain ⟨v, hv⟩ := hcircuit.transGen
      obtain ⟨back, hback⟩ := transGen_rewrites_of_leftCorner hv
      exact ⟨v, back, hback⟩
    refine ⟨⟨fun _ => hrecursive, fun _ => ⟨cycle, hcheck⟩⟩, fun cycle' h => ?_, fun h => ?_⟩
    · rw [hcheck] at h
      cases h
      exact hcircuit
    · exact False.elim (h hrecursive)

/-- The left recursion of `A` and `B` hides behind `N`, which can vanish, and the start is not part
of it. -/
def hiddenRecursion : Grammar Char Char :=
  .ofRules none [⟨'S', [.terminal 'a', .nonterminal 'A']⟩,
    ⟨'A', [.nonterminal 'N', .nonterminal 'B', .terminal 'b']⟩, ⟨'N', [.terminal 'n']⟩, ⟨'N', []⟩,
    ⟨'B', [.nonterminal 'N', .nonterminal 'N', .nonterminal 'A']⟩, ⟨'B', [.terminal 'b']⟩]

theorem checkTopDown_exact_hiddenRecursion :
    hiddenRecursion.start = some 'S' ∧ (∃ p ∈ hiddenRecursion.productions, p.head = 'S') ∧
      hiddenRecursion.checkTopDown = .error (.leftRecursion ['A', 'B', 'A']) ∧
      hiddenRecursion.LeftRecursive ∧ Circuit hiddenRecursion.LeftCorner ['A', 'B', 'A'] := by
  have hstart : hiddenRecursion.start = some 'S' := rfl
  have hdefined : ∃ p ∈ hiddenRecursion.productions, p.head = 'S' :=
    ⟨_, List.mem_cons_self, rfl⟩
  have hcheck : hiddenRecursion.checkTopDown = .error (.leftRecursion ['A', 'B', 'A']) := by rfl
  obtain ⟨hiff, hcircuit, _⟩ := checkTopDown_exact hstart hdefined
  exact ⟨hstart, hdefined, hcheck, hiff.mp ⟨_, hcheck⟩, hcircuit _ hcheck⟩

end Grammar

end ContextFree
