import ContextFree.Tree.Basic

namespace ContextFree

variable {V T : Type}

/-- A terminal yields itself, whatever stands below it, and a nonterminal what its children yield,
from left to right. -/
def Tree.yield : Tree V T → List T
  | node (.terminal t) _ => [t]
  | node (.nonterminal _) ts => ts.flatMap yield

/-- A collection of leaves that is under way. -/
structure Harvest (V T : Type) where
  leaves : List T
  /-- The stack of the trees still to be looked at, with its top at the end. -/
  pending : List (Tree V T)

namespace Harvest

/-- One step: a tree is taken off the stack, and either it is a leaf or its children are pushed, the
last one first. If nothing is pending, the leaves are complete. -/
def step (s : Harvest V T) : Harvest V T ⊕ List T :=
  match s.pending.getLast? with
  | none => .inr s.leaves
  | some (.node (.terminal t) _) => .inl ⟨s.leaves ++ [t], s.pending.dropLast⟩
  | some (.node (.nonterminal _) ts) => .inl ⟨s.leaves, s.pending.dropLast ++ ts.reverse⟩

section Steps

variable (leaves : List T) (pending ts : List (Tree V T))

theorem step_nil : step (⟨leaves, []⟩ : Harvest V T) = .inr leaves :=
  rfl

theorem step_terminal (t : T) :
    step ⟨leaves, pending ++ [.node (.terminal t) ts]⟩ = .inl ⟨leaves ++ [t], pending⟩ := by
  simp [step]

theorem step_nonterminal (v : V) :
    step ⟨leaves, pending ++ [.node (.nonterminal v) ts]⟩ =
      .inl ⟨leaves, pending ++ ts.reverse⟩ := by
  simp [step]

end Steps

/-- A collection that comes to an end, step by step. -/
inductive Ends : Harvest V T → List T → Prop
  | last {s : Harvest V T} {found : List T} (h : s.step = .inr found) : Ends s found
  | next {s s' : Harvest V T} {found : List T} (h : s.step = .inl s') (rest : Ends s' found) :
      Ends s found

/-- The leaves found, and behind them what the pending trees yield, from the top of the stack down.
-/
def yield (s : Harvest V T) : List T :=
  s.leaves ++ s.pending.reverse.flatMap Tree.yield

/-- A step keeps the yield, which is that of the leaves alone when they are complete. -/
theorem yield_step (s : Harvest V T) : s.step.elim yield id = s.yield := by
  obtain ⟨leaves, pending⟩ := s
  rcases pending.eq_nil_or_concat with rfl | ⟨pending, ⟨symbol, ts⟩, rfl⟩
  · simp [step_nil, yield]
  · cases symbol with
    | terminal t => simp [step_terminal, yield, Tree.yield]
    | nonterminal v => simp [step_nonterminal, yield, Tree.yield]

theorem Ends.eq_yield {s : Harvest V T} {found : List T} (h : s.Ends found) : found = s.yield := by
  induction h with
  | @last s _ hstep =>
    have hkept := s.yield_step
    rw [hstep] at hkept
    exact hkept
  | @next s _ _ hstep _ ih =>
    have hkept := s.yield_step
    rw [hstep] at hkept
    exact ih.trans hkept

/-- A collection comes to an end, and with the leaves of the pending trees behind those it has found
before. The first of the pending trees is on top of the stack. -/
theorem ends_leavesOf (leaves : List T) (pending : List (Tree V T)) :
    Ends ⟨leaves, pending.reverse⟩ (leaves ++ Tree.leavesOf pending) := by
  -- The pending trees are worked off as the stack is, so the recursion over them follows its steps.
  fun_induction Tree.leavesOf pending generalizing leaves with
  | case1 =>
    rw [List.append_nil]
    exact .last (step_nil leaves)
  | case2 t ts pending ih =>
    rw [List.reverse_cons]
    refine .next (step_terminal leaves pending.reverse ts t) ?_
    simpa using ih (leaves ++ [t])
  | case3 v ts pending ih =>
    rw [List.reverse_cons]
    refine .next (step_nonterminal leaves pending.reverse ts v) ?_
    simpa using ih leaves

/-- From everywhere a collection comes to one end, which is its yield. -/
theorem ends_iff {s : Harvest V T} {found : List T} : s.Ends found ↔ found = s.yield := by
  refine ⟨Ends.eq_yield, ?_⟩
  rintro rfl
  have hends := ends_leavesOf s.leaves s.pending.reverse
  rw [List.reverse_reverse] at hends
  rwa [← hends.eq_yield]

end Harvest

namespace Tree

theorem leavesOf_eq_flatMap (ts : List (Tree V T)) : leavesOf ts = ts.flatMap yield := by
  simpa [Harvest.yield] using (Harvest.ends_leavesOf [] ts).eq_yield

/-- The leaves of trees that are worked off one after the other. -/
theorem leavesOf_append (ts us : List (Tree V T)) :
    leavesOf (ts ++ us) = leavesOf ts ++ leavesOf us := by
  simp only [leavesOf_eq_flatMap, List.flatMap_append]

/-- For every tree, also if there are children below terminals, the loop that begins with the tree
on its stack comes to one end, with the leaves of the tree, and these are its yield. -/
theorem leaves_exact (t : Tree V T) :
    (∀ found, Harvest.Ends ⟨[], [t]⟩ found ↔ found = t.leaves) ∧ t.leaves = t.yield := by
  have hleaves : t.leaves = t.yield := by simp [leaves, leavesOf_eq_flatMap]
  refine ⟨fun found => ?_, hleaves⟩
  rw [Harvest.ends_iff, hleaves]
  simp [Harvest.yield]

-- The leaves below a child stand between those beside it; the child of a terminal is passed over.
example : (node (.nonterminal 'S') [leaf 'a', node (.nonterminal 'A') [leaf 'b', leaf 'c'],
    node (.terminal 'd') [leaf 'e']] : Tree Char Char).leaves = ['a', 'b', 'c', 'd'] := by
  cbv

end Tree

end ContextFree
