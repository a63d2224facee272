import ContextFree.Proofs.Circuit

namespace ContextFree

open Relation

variable {V : Type} [DecidableEq V]

/-- What a recursive search comes to: a cycle, or else the marks that it leaves behind. -/
inductive Exploration (V : Type) where
  | cycle (nodes : List V)
  | marks (marks : List (V × Mark))

/-- The recursive search of the successors of a node, which is the top of the stack of active nodes.
The first edge back to an active node closes a cycle. The roots are searched in the same way with an
empty stack, when no node is active. In terms of colours a node without a mark is white, an active
one grey and a finished one black. -/
inductive Explores (edges : Grouping V V) :
    List V → List V → List (V × Mark) → Exploration V → Prop
  | done {stack : List V} {marks : List (V × Mark)} :
      Explores edges stack [] marks (.marks marks)
  | back {stack ws : List V} {marks : List (V × Mark)} {w : V}
      (hw : marks.lookup w = some .active) :
      Explores edges stack (w :: ws) marks
        (.cycle (w :: (stack.takeWhile (· ≠ w)).reverse ++ [w]))
  | pass {stack ws : List V} {marks : List (V × Mark)} {w : V} {out : Exploration V}
      (hw : marks.lookup w = some .finished) (rest : Explores edges stack ws marks out) :
      Explores edges stack (w :: ws) marks out
  | found {stack ws nodes : List V} {marks : List (V × Mark)} {w : V}
      (hw : marks.lookup w = none)
      (below : Explores edges (w :: stack) (edges.find w) ((w, .active) :: marks)
        (.cycle nodes)) :
      Explores edges stack (w :: ws) marks (.cycle nodes)
  | visit {stack ws : List V} {marks marks' : List (V × Mark)} {w : V} {out : Exploration V}
      (hw : marks.lookup w = none)
      (below : Explores edges (w :: stack) (edges.find w) ((w, .active) :: marks) (.marks marks'))
      (rest : Explores edges stack ws ((w, .finished) :: marks') out) :
      Explores edges stack (w :: ws) marks out

/-- The answer of the recursive search from the roots in their order. -/
def DepthFirst (edges : Grouping V V) (roots : List V) : Option (List V) → Prop
  | some cycle => Explores edges [] roots [] (.cycle cycle)
  | none => ∃ marks, Explores edges [] roots [] (.marks marks)

variable {edges : Grouping V V}

open CycleSearch in
/-- A search takes no mark away. -/
theorem Explores.waiting_le {stack ws : List V} {marks marks' : List (V × Mark)}
    (h : Explores edges stack ws marks (.marks marks')) :
    waiting edges.groups marks' ≤ waiting edges.groups marks := by
  generalize hout : Exploration.marks marks' = out at h
  induction h generalizing marks' with
  | done =>
    cases hout
    exact Nat.le_refl _
  | back _ => cases hout
  | pass _ _ ih => exact ih hout
  | found _ _ _ => cases hout
  | @visit stack ws marks marks₁ w out _ _ _ ih ih' =>
    have hbelow := ih rfl
    have hrest := ih' hout
    have henter := waiting_mark_le edges.groups marks w .active
    have hleave := waiting_mark_le edges.groups marks₁ w .finished
    omega

open CycleSearch in
/-- The recursion ends: with each node that it enters fewer edges are left to be followed. -/
theorem exists_explores (edges : Grouping V V) (n : Nat) (stack ws : List V) (marks : List (V × Mark))
    (hn : waiting edges.groups marks + ws.length ≤ n) :
    ∃ out, Explores edges stack ws marks out := by
  induction n generalizing stack ws marks with
  | zero =>
    cases ws with
    | nil => exact ⟨_, .done⟩
    | cons w ws => simp at hn
  | succ n ih =>
    cases ws with
    | nil => exact ⟨_, .done⟩
    | cons w ws =>
      rw [List.length_cons] at hn
      cases hw : marks.lookup w with
      | some m =>
        cases m with
        | active => exact ⟨_, .back hw⟩
        | finished =>
          obtain ⟨out, hrest⟩ := ih stack ws marks (by omega)
          exact ⟨out, .pass hw hrest⟩
      | none =>
        have henter := waiting_enter edges hw .active
        obtain ⟨out, hbelow⟩ :=
          ih (w :: stack) (edges.find w) ((w, .active) :: marks) (by omega)
        cases out with
        | cycle nodes => exact ⟨_, .found hw hbelow⟩
        | marks marks' =>
          have hle := hbelow.waiting_le
          have hleave := waiting_mark_le edges.groups marks' w .finished
          obtain ⟨out, hrest⟩ := ih stack ws ((w, .finished) :: marks') (by omega)
          exact ⟨out, .visit hw hbelow hrest⟩

theorem exists_depthFirst (edges : Grouping V V) (roots : List V) :
    ∃ answer, DepthFirst edges roots answer := by
  obtain ⟨out, hout⟩ := exists_explores edges _ [] roots [] (Nat.le_refl _)
  cases out with
  | cycle nodes => exact ⟨some nodes, hout⟩
  | marks marks => exact ⟨none, marks, hout⟩

namespace CycleSearch

variable {roots : List V} {s s' t : CycleSearch V} {answer : Option (List V)}

/-- One step that does not end the search. -/
def Goes (edges : Grouping V V) (s s' : CycleSearch V) : Prop :=
  s.step edges = .inl s'

/-- The nodes of the path in the order in which they were entered. -/
def trail (s : CycleSearch V) : List V :=
  (s.path.map Prod.fst).reverse

theorem Ends.of_goes (h : ReflTransGen (Goes edges) s t) (hends : Ends edges t answer) :
    Ends edges s answer := by
  induction h using ReflTransGen.head_induction_on with
  | refl => exact hends
  | head hstep _ ih => exact .next hstep ih

theorem Ends.unique {answer' : Option (List V)} (h : Ends edges s answer)
    (h' : Ends edges s answer') : answer = answer' := by
  induction h with
  | last hstep =>
    cases h' with
    | last hstep' => exact Sum.inr.inj (hstep.symm.trans hstep')
    | next hstep' _ => cases hstep.symm.trans hstep'
  | next hstep _ ih =>
    cases h' with
    | last hstep' => cases hstep.symm.trans hstep'
    | next hstep' hrest' =>
      cases Sum.inl.inj (hstep.symm.trans hstep')
      exact ih hrest'

theorem Sound.goes (h : Sound edges roots s) (hgoes : ReflTransGen (Goes edges) s t) :
    Sound edges roots t := by
  induction hgoes with
  | refl => exact h
  | tail _ hstep ih => exact ih.step hstep

theorem Walks.goes (h : Walks edges s) (hgoes : ReflTransGen (Goes edges) s t) :
    Walks edges t := by
  induction hgoes with
  | refl => exact h
  | tail _ hstep ih => exact ih.step hstep

/-- Active nodes are the nodes of the path. -/
theorem mark?_eq_active_iff (hwalks : Walks edges s) (hsound : Sound edges roots s) (v : V) :
    s.mark? v = some .active ↔ v ∈ s.trail := by
  rw [trail, List.mem_reverse]
  exact ⟨hsound.active v, hwalks.active v⟩

section Close

variable {path : List (V × List V)} {w : V}

/-- The cycle that an edge back to a node closes runs through the nodes entered after it. -/
theorem close_eq_takeWhile (hnodup : (path.map Prod.fst).Nodup) (hw : w ∈ path.map Prod.fst) :
    close path w = w :: ((path.map Prod.fst).takeWhile (· ≠ w)).reverse ++ [w] := by
  unfold close
  obtain ⟨above, below, hpath⟩ := List.append_of_mem hw
  rw [hpath] at hnodup ⊢
  obtain ⟨_, hcons, hapart⟩ := List.nodup_append.mp hnodup
  have habove : ∀ u ∈ above, decide (u ≠ w) = true := fun u hu =>
    decide_eq_true (hapart u hu w List.mem_cons_self)
  have hbelow : ∀ u ∈ below.reverse, decide (u ≠ w) = true := by
    intro u hu
    rw [decide_eq_true_iff]
    rintro rfl
    exact (List.nodup_cons.mp hcons).1 (List.mem_reverse.mp hu)
  rw [List.takeWhile_append_of_pos habove, List.takeWhile_cons_of_neg (by simp), List.append_nil,
    List.reverse_append, List.reverse_cons, List.append_assoc,
    List.dropWhile_append_of_pos hbelow, List.singleton_append,
    List.dropWhile_cons_of_neg (by simp)]

/-- The place of a node on the path is found, and the cycle begins there. -/
theorem close_eq_drop (hw : w ∈ path.map Prod.fst) :
    ∃ i, (path.map Prod.fst).reverse.idxOf? w = some i ∧
      close path w = (path.map Prod.fst).reverse.drop i ++ [w] := by
  have hmem : w ∈ (path.map Prod.fst).reverse := List.mem_reverse.mpr hw
  refine ⟨(path.map Prod.fst).reverse.findIdx (· == w), ?_, ?_⟩
  · rw [List.idxOf?, List.findIdx?_eq_some_iff_findIdx_eq]
    exact ⟨List.findIdx_lt_length_of_exists ⟨w, hmem, beq_self_eq_true w⟩, rfl⟩
  · rw [close, List.dropWhile_eq_drop_findIdx_not]
    simp [beq_eq_decide]

end Close

/-- The same search with other successors to be tried at the last node of its path, or with other
roots if it has no path. -/
def trying (s : CycleSearch V) (ws : List V) (marks : List (V × Mark)) : CycleSearch V :=
  match s.path with
  | [] => ⟨ws, [], marks⟩
  | (v, _) :: path => ⟨s.roots, (v, ws) :: path, marks⟩

section Trying

omit [DecidableEq V] in
@[simp]
theorem marks_trying (s : CycleSearch V) (ws : List V) (marks : List (V × Mark)) :
    (s.trying ws marks).marks = marks := by
  obtain ⟨roots, path, _⟩ := s
  cases path <;> rfl

omit [DecidableEq V] in
@[simp]
theorem nodes_trying (s : CycleSearch V) (ws : List V) (marks : List (V × Mark)) :
    (s.trying ws marks).path.map Prod.fst = s.path.map Prod.fst := by
  obtain ⟨roots, path, _⟩ := s
  cases path <;> rfl

variable (edges) (s : CycleSearch V) {w : V} (ws : List V) {marks : List (V × Mark)}

theorem goes_pass (hw : marks.lookup w = some .finished) :
    Goes edges (s.trying (w :: ws) marks) (s.trying ws marks) := by
  obtain ⟨roots, path, _⟩ := s
  cases path <;> simp [Goes, trying, step, mark?, hw]

theorem step_back (hw : marks.lookup w = some .active) (hpath : w ∈ s.path.map Prod.fst) :
    (s.trying (w :: ws) marks).step edges =
      .inr (some (close (s.trying (w :: ws) marks).path w)) := by
  obtain ⟨roots, path, _⟩ := s
  cases path with
  | nil => cases hpath
  | cons top path => simp [trying, step, mark?, hw]

/-- A node is entered, and below it all of its successors are to be tried. -/
theorem goes_enter (hw : marks.lookup w = none) :
    Goes edges (s.trying (w :: ws) marks)
      (((s.trying ws marks).enter edges w).trying (edges.find w) ((w, .active) :: marks)) := by
  obtain ⟨roots, path, _⟩ := s
  cases path <;> simp [Goes, trying, enter, step, mark?, hw]

variable (w marks)

theorem nodes_enter :
    ((s.trying ws marks).enter edges w).path.map Prod.fst = w :: s.path.map Prod.fst := by
  rw [enter, List.map_cons, nodes_trying]

/-- A node is left when all of its successors have been tried. -/
theorem goes_leave (marks' : List (V × Mark)) :
    Goes edges (((s.trying ws marks).enter edges w).trying [] marks')
      (s.trying ws ((w, .finished) :: marks')) := by
  obtain ⟨roots, path, _⟩ := s
  cases path <;> rfl

end Trying

/-- What the recursive search comes to, the search comes to with the stack as its path: it ends with
the cycle, or it tries no more successors there. -/
def Arrives (edges : Grouping V V) (s t : CycleSearch V) : Exploration V → Prop
  | .cycle nodes => Ends edges t (some nodes)
  | .marks marks => ReflTransGen (Goes edges) t (s.trying [] marks)

theorem Arrives.of_goes {out : Exploration V} (hgoes : ReflTransGen (Goes edges) t s')
    (h : Arrives edges s s' out) : Arrives edges s t out := by
  cases out with
  | cycle nodes => exact Ends.of_goes hgoes h
  | marks marks => exact hgoes.trans h

end CycleSearch

open CycleSearch in
/-- The search follows the recursion. -/
theorem Explores.arrives {stack ws : List V} {marks : List (V × Mark)} {out : Exploration V}
    (h : Explores edges stack ws marks out) {roots : List V} {s : CycleSearch V}
    (hstack : s.path.map Prod.fst = stack) (hwalks : Walks edges (s.trying ws marks))
    (hsound : Sound edges roots (s.trying ws marks)) :
    Arrives edges s (s.trying ws marks) out := by
  induction h generalizing s with
  | done => exact .refl
  | @back stack ws marks w hw =>
    have hmem : w ∈ (s.trying (w :: ws) marks).path.map Prod.fst :=
      hsound.active w (by rw [mark?, marks_trying, hw])
    have hclose := close_eq_takeWhile hwalks.nodup hmem
    rw [nodes_trying] at hmem hclose
    rw [← hstack, ← hclose]
    exact .last (step_back edges s ws hw hmem)
  | @pass stack ws marks w out hw _ ih =>
    have hgoes := goes_pass edges s ws hw
    exact .of_goes (.single hgoes) (ih hstack (hwalks.step hgoes) (hsound.step hgoes))
  | @found stack ws nodes marks w hw _ ih =>
    have hgoes := goes_enter edges s ws hw
    have hnodes := nodes_enter edges s w ws marks
    rw [hstack] at hnodes
    exact Ends.next hgoes (ih hnodes (hwalks.step hgoes) (hsound.step hgoes))
  | @visit stack ws marks marks' w out hw _ _ ih ih' =>
    have hgoes := goes_enter edges s ws hw
    have hnodes := nodes_enter edges s w ws marks
    rw [hstack] at hnodes
    have hbelow := ih hnodes (hwalks.step hgoes) (hsound.step hgoes)
    have hall := (ReflTransGen.head hgoes hbelow).tail (goes_leave edges s w ws marks marks')
    exact .of_goes hall (ih' hstack (hwalks.goes hall) (hsound.goes hall))

open CycleSearch in
/-- The recursive search has no other answer than the search that keeps its path itself. -/
theorem DepthFirst.eq_findCycle {roots : List V} {answer : Option (List V)}
    (h : DepthFirst edges roots answer) : answer = findCycle roots edges := by
  refine Ends.unique (s := ⟨roots, [], []⟩) ?_ (ends_findCycle roots edges)
  have harrives : ∀ out, Explores edges [] roots [] out →
      Arrives edges ⟨roots, [], []⟩ ⟨roots, [], []⟩ out := fun out hout =>
    hout.arrives (s := ⟨roots, [], []⟩) rfl (walks_start edges roots) (sound_start edges roots)
  cases answer with
  | some cycle => exact harrives _ h
  | none =>
    obtain ⟨marks, hmarks⟩ := h
    exact .of_goes (harrives _ hmarks) (.last rfl)

theorem depthFirst_iff {roots : List V} {answer : Option (List V)} :
    DepthFirst edges roots answer ↔ findCycle roots edges = answer := by
  refine ⟨fun h => h.eq_findCycle.symm, ?_⟩
  rintro rfl
  obtain ⟨answer, h⟩ := exists_depthFirst edges roots
  rwa [← h.eq_findCycle]

/-- A cycle is found exactly if the graph has one. -/
theorem exists_findCycle_iff {roots : List V} (hkeys : ∀ v ∈ edges.keys, v ∈ roots) :
    (∃ cycle, findCycle roots edges = some cycle) ↔
      ∃ v, TransGen (fun v w => edges.Successor w v) v v := by
  constructor
  · rintro ⟨cycle, h⟩
    exact (circuit_of_findCycle h).transGen
  · rintro ⟨v, hv⟩
    cases h : findCycle roots edges with
    | some cycle => exact ⟨cycle, rfl⟩
    | none =>
      have hwf := wellFounded_of_findCycle h hkeys
      exact False.elim (hwf.transGen.irrefl.irrefl v (transGen_swap.mp hv))

open CycleSearch in
/-- If all nodes with edges are among the roots, the search comes to an end and finds a cycle
exactly if the graph has one: a circuit along the edges, and the one that the recursive search finds
first. On the way to it the active nodes are those of the path, so an edge to an active node leads
to a place on the path, from which on the path is the cycle. -/
theorem findCycle_exact {roots : List V} (hkeys : ∀ v ∈ edges.keys, v ∈ roots) :
    Ends edges ⟨roots, [], []⟩ (findCycle roots edges) ∧
      ((∃ cycle, findCycle roots edges = some cycle) ↔
        ∃ v, TransGen (fun v w => edges.Successor w v) v v) ∧
      (∀ cycle, findCycle roots edges = some cycle →
        Circuit (fun v w => edges.Successor w v) cycle) ∧
      (∀ answer, DepthFirst edges roots answer ↔ findCycle roots edges = answer) ∧
      ∀ s, ReflTransGen (Goes edges) ⟨roots, [], []⟩ s →
        (∀ v, s.mark? v = some .active ↔ v ∈ s.trail) ∧
          ∀ v w ws path, s.path = (v, w :: ws) :: path → s.mark? w = some .active →
            ∃ i, s.trail.idxOf? w = some i ∧
              s.step edges = .inr (some (s.trail.drop i ++ [w])) := by
  refine ⟨ends_findCycle roots edges, exists_findCycle_iff hkeys,
    fun cycle h => circuit_of_findCycle h, fun answer => depthFirst_iff, fun s hs => ?_⟩
  have hwalks := (walks_start edges roots).goes hs
  have hsound := (sound_start edges roots).goes hs
  refine ⟨mark?_eq_active_iff hwalks hsound, fun v w ws path hpath hw => ?_⟩
  obtain ⟨i, hi, hclose⟩ := close_eq_drop (hsound.active w hw)
  refine ⟨i, hi, ?_⟩
  rw [trail, ← hclose]
  simp only [step, hpath, hw]

/-- The node 1 is a dead end, to which there are two edges from 0; of the two cycles the one through
3 and 4 is closed before the loop at 4. -/
def twoCycles : Grouping Nat Nat :=
  .ofList [(0, 1), (0, 1), (2, 0), (2, 3), (3, 4), (4, 3), (4, 4)]

theorem findCycle_exact_twoCycles :
    (∀ v ∈ twoCycles.keys, v ∈ [0, 1, 2, 2, 3, 4]) ∧
      findCycle [0, 1, 2, 2, 3, 4] twoCycles = some [3, 4, 3] ∧
      DepthFirst twoCycles [0, 1, 2, 2, 3, 4] (some [3, 4, 3]) ∧
      ¬ DepthFirst twoCycles [0, 1, 2, 2, 3, 4] (some [4, 4]) ∧
      Circuit (fun v w => twoCycles.Successor w v) [3, 4, 3] := by
  have hkeys : ∀ v ∈ twoCycles.keys, v ∈ [0, 1, 2, 2, 3, 4] := by decide
  have hfind : findCycle [0, 1, 2, 2, 3, 4] twoCycles = some [3, 4, 3] := by rfl
  obtain ⟨_, _, hcircuit, hrecursive, _⟩ := findCycle_exact hkeys
  refine ⟨hkeys, hfind, (hrecursive _).mpr hfind, fun hother => ?_, hcircuit _ hfind⟩
  have hloop := (hrecursive _).mp hother
  rw [hfind] at hloop
  exact absurd hloop (by decide)

-- The search from another root closes the loop.
example : findCycle [4] twoCycles = some [4, 3, 4] := by
  rfl

end ContextFree
