import ContextFree.Parse
import ContextFree.Proofs.Renaming.Grammar

namespace ContextFree

open Function (Injective)

variable {V V' T T' : Type} {f : V → V'} {e : T → T'} {g : Grammar V T}

/-- The same defect under other names. -/
def Defect.map (f : V → V') : Defect V → Defect V'
  | noProductions => noProductions
  | missingStart v => missingStart (f v)
  | emptyBody n => emptyBody n
  | unitCycle c => unitCycle (c.map f)
  | leftRecursion c => leftRecursion (c.map f)

variable [DecidableEq V] [DecidableEq V']

namespace CycleSearch

def map (f : V → V') (s : CycleSearch V) : CycleSearch V' :=
  ⟨s.roots.map f, s.path.map (Prod.map f (List.map f)), s.marks.map (Prod.map f id)⟩

theorem mark?_map (hf : Injective f) (s : CycleSearch V) (v : V) :
    (s.map f).mark? (f v) = s.mark? v := by
  simp only [mark?, map]
  generalize s.marks = marks
  induction marks with
  | nil => rfl
  | cons entry rest ih =>
    obtain ⟨w, m⟩ := entry
    rw [List.map_cons, Prod.map, List.lookup_cons, List.lookup_cons, ih]
    by_cases h : v = w
    · simp [h]
    · have hne : f v ≠ f w := fun heq => h (hf heq)
      rw [beq_false_of_ne h, beq_false_of_ne hne]

theorem close_map (hf : Injective f) (path : List (V × List V)) (v : V) :
    close (path.map (Prod.map f (List.map f))) (f v) = (close path v).map f := by
  unfold close
  have hnodes : (path.map (Prod.map f (List.map f))).map Prod.fst = (path.map Prod.fst).map f := by
    simp
  have hother : ((fun w : V' => decide (w ≠ f v)) ∘ f) = fun w => decide (w ≠ v) := by
    funext w
    simp [hf.eq_iff]
  rw [hnodes, ← List.map_reverse, List.dropWhile_map, hother, List.map_append]
  rfl

variable {edges : Grouping V V} {edges' : Grouping V' V'}

/-- Along renamed edges a renamed search makes the renamed step. -/
theorem step_map (hf : Injective f) (hedges : ∀ v, edges'.find (f v) = (edges.find v).map f)
    (s : CycleSearch V) :
    (s.map f).step edges' = (s.step edges).map (map f) (Option.map (List.map f)) := by
  obtain ⟨roots, path, marks⟩ := s
  have henter : ∀ (s : CycleSearch V) (v : V),
      (s.map f).enter edges' (f v) = (s.enter edges v).map f := by
    intro s v
    simp [enter, map, hedges]
  cases path with
  | nil =>
    cases roots with
    | nil => rfl
    | cons r rs =>
      have hmark := mark?_map hf ⟨r :: rs, [], marks⟩ r
      simp only [step]
      simp only [map, List.map_nil, List.map_cons] at hmark ⊢
      rw [hmark]
      split
      · rfl
      · exact congrArg Sum.inl (henter ⟨rs, [], marks⟩ r)
  | cons top path =>
    obtain ⟨v, successors⟩ := top
    cases successors with
    | nil => rfl
    | cons w ws =>
      have hmark := mark?_map hf ⟨roots, (v, w :: ws) :: path, marks⟩ w
      have hclose := close_map hf ((v, w :: ws) :: path) w
      simp only [step]
      simp only [map, List.map_cons, Prod.map] at hmark hclose ⊢
      rw [hmark]
      split
      · rw [hclose]
        rfl
      · rfl
      · exact congrArg Sum.inl (henter ⟨roots, (v, ws) :: path, marks⟩ w)

theorem run_map (hf : Injective f) (hedges : ∀ v, edges'.find (f v) = (edges.find v).map f)
    (n : Nat) (s : CycleSearch V) : run edges' n (s.map f) = (run edges n s).map (List.map f) := by
  induction n generalizing s with
  | zero => rfl
  | succ n ih =>
    rw [run, run, step_map hf hedges]
    cases s.step edges with
    | inl s' => exact ih s'
    | inr answer => rfl

end CycleSearch

theorem findCycle_map (hf : Injective f) (roots : List V) (entries : List (V × V)) :
    findCycle (roots.map f) (.ofList (entries.map (Prod.map f f))) =
      (findCycle roots (.ofList entries)).map (List.map f) := by
  unfold findCycle
  rw [Grouping.size_ofList, Grouping.size_ofList, List.length_map, List.length_map]
  exact CycleSearch.run_map hf (Grouping.find_ofList_map hf f entries) _ ⟨roots, [], []⟩

theorem leftCorners_map (hf : Injective f) (nullable : List V) (body : List (Symbol V T)) :
    leftCorners (nullable.map f) (body.map (Symbol.map f e)) =
      (leftCorners nullable body).map f := by
  induction body with
  | nil => rfl
  | cons s body ih =>
    cases s with
    | terminal t => rfl
    | nonterminal v =>
      simp only [List.map_cons, Symbol.map, leftCorners, List.mem_map_of_injective hf]
      split
      · rw [ih]
      · rfl

namespace Grammar

theorem definedStart_map (hf : Injective f) :
    (g.map f e).definedStart = (g.definedStart.mapError (Defect.map f)).map f := by
  unfold definedStart
  cases hstart : g.start with
  | none => simp [map, hstart, Except.mapError, Except.map, Defect.map]
  | some v =>
    have hdefined := isDefined_map (e := e) (g := g) hf v
    simp only [map, hstart, Option.map_some, List.isEmpty_map] at hdefined ⊢
    rw [hdefined]
    split
    · rfl
    · split <;> rfl

theorem findCycle_leftCornerEdges_map (hf : Injective f) :
    findCycle (g.map f e).heads (g.map f e).leftCornerEdges =
      (findCycle g.heads g.leftCornerEdges).map (List.map f) := by
  simp only [leftCornerEdges]
  rw [heads_map hf, nullable_map hf, ← findCycle_map hf, List.map_flatMap]
  simp only [map, List.flatMap_map]
  congr 3
  funext p
  simp only [Production.map, Rule.map, leftCorners_map hf, List.map_map]
  rfl

theorem findCycle_unitEdges_map (hf : Injective f) :
    findCycle (g.map f e).heads (g.map f e).unitEdges =
      (findCycle g.heads g.unitEdges).map (List.map f) := by
  unfold unitEdges
  rw [heads_map hf, ← findCycle_map hf, map, List.filterMap_map, List.map_filterMap]
  congr 3
  funext p
  simp only [Function.comp, Production.map, Rule.unit?_map, Option.map_map]
  rfl

theorem checkTopDown_map (hf : Injective f) :
    (g.map f e).checkTopDown = (g.checkTopDown.mapError (Defect.map f)).map f := by
  unfold checkTopDown
  rw [definedStart_map hf, findCycle_leftCornerEdges_map hf]
  cases g.definedStart with
  | error defect => rfl
  | ok start => cases findCycle g.heads g.leftCornerEdges <;> rfl

theorem checkBottomUp_map (hf : Injective f) :
    (g.map f e).checkBottomUp = (g.checkBottomUp.mapError (Defect.map f)).map f := by
  have hempty : (g.map f e).productions.find? (fun p => p.body.isEmpty) =
      (g.productions.find? fun p => p.body.isEmpty).map (Production.map f e) := by
    rw [map, List.find?_map]
    congr 2
    funext p
    exact List.isEmpty_map
  unfold checkBottomUp
  rw [definedStart_map hf, findCycle_unitEdges_map hf, hempty]
  cases g.definedStart with
  | error defect => rfl
  | ok start =>
    cases g.productions.find? fun p => p.body.isEmpty with
    | some p => rfl
    | none => cases findCycle g.heads g.unitEdges <;> rfl

end Grammar

theorem Strategy.check_map (hf : Injective f) [DecidableEq T] [DecidableEq T']
    (strategy : Strategy) :
    strategy.check (g.map f e) = ((strategy.check g).mapError (Defect.map f)).map f := by
  cases strategy with
  | topDown => exact Grammar.checkTopDown_map hf
  | bottomUp => exact Grammar.checkBottomUp_map hf

end ContextFree
