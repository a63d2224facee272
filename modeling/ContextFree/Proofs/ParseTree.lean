import ContextFree.Proofs.Faults
import ContextFree.Proofs.Replay

namespace ContextFree

variable {P V T : Type}

/-- A report with a derivation comes from a run that goes the same way without a trace. -/
theorem Machine.accepted_of_report? {m : Machine P V T} {input : Input V T} {sink : Sink}
    {moves : Nat} {report : Report V T} {list : List Nat}
    (h : m.report? input sink moves = some report) (hok : report.outcome = .ok list) :
    ∃ r, m.run input moves (m.start .silent) = .halted (.ok list) r .silent ∧
      report.taken = r.taken := by
  obtain ⟨r, sink', hrun, htaken⟩ := halted_of_report? h
  rw [hok] at hrun
  exact ⟨r, silent_of_halted (by simp) hrun, htaken⟩

/-- A run that accepts has read an input to its end, if no input with a fault is accepted. -/
theorem Machine.stops_of_accepted {m : Machine P V T} {source : Source V T} {isTerminal : T → Bool}
    {moves : Nat} {list : List Nat} {r : Reader V T} (v : V)
    (hrun : m.run ⟨source, isTerminal⟩ moves (m.start .silent) = .halted (.ok list) r .silent)
    (hfault : ∀ (source' : Source V T) word f,
      (⟨source', isTerminal⟩ : Input V T).Stops word (some f) →
        ¬ m.Halts ⟨source', isTerminal⟩ (.ok list)) :
    ∃ word, (⟨source, isTerminal⟩ : Input V T).Stops word none ∧ r.taken = word.length := by
  have hsound := m.sound ⟨source, isTerminal⟩ .silent moves
  rw [hrun] at hsound
  rcases hsound with ⟨hlive, _⟩ | ⟨f, _, hbad⟩
  · exact ⟨_, hlive.stops_of_ended (ended_of_halted v hrun hlive hfault), hlive.taken⟩
  · cases hbad

section Trees

variable {g : Grammar V T} {start : V} {d : LabelledTree V T}

theorem LabelledTree.leaves_erase (h : g.Grows [.nonterminal start] [d]) :
    d.erase.leaves = d.word := by
  have hleaves := h.leavesOf []
  simpa [Tree.leaves, Tree.leavesOf] using hleaves

theorem LabelledTree.symbol_erase (h : g.Grows [.nonterminal start] [d]) :
    d.erase.symbol = .nonterminal start := by
  simpa using h.map_symbol

theorem LabelledTree.follows_erase (h : g.Grows [.nonterminal start] [d]) : d.erase.Follows g :=
  h.follows _ (by simp)

end Trees

namespace Strategy

/-- The derivation in which a strategy lists the labels of a tree. -/
def derivation (d : LabelledTree V T) : Strategy → List Nat
  | topDown => d.preorder
  | bottomUp => d.postorder.reverse

variable [DecidableEq V] [DecidableEq T] {strategy : Strategy} {g : Grammar V T} {start : V}
  {d : LabelledTree V T}

theorem tree_derivation (hstart : g.start = some start) (h : g.Grows [.nonterminal start] [d]) :
    strategy.tree g (strategy.derivation d) = .ok d.erase := by
  cases strategy with
  | topDown => exact h.ofLeftParse_preorder hstart
  | bottomUp =>
    rw [derivation, tree, List.reverse_reverse]
    exact h.ofRightParse_postorder hstart

variable [Name V] [Name T] {source : Source V T} {sink : Sink} {moves : Nat}
  {report : Report V T} {list : List Nat}

/-- A derivation that is reported is that of a tree of the start for the input. -/
theorem exists_labelledTree (h : strategy.parse g source sink moves = some report)
    (hok : report.outcome = .ok list) :
    ∃ start d, g.start = some start ∧ g.Grows [.nonterminal start] [d] ∧
      strategy.derivation d = list ∧ source.Brings d.word ∧ report.taken = d.word.length := by
  unfold parse at h
  cases hcheck : strategy.check g with
  | error defect =>
    rw [hcheck] at h
    cases h
    cases hok
  | ok start =>
    rw [hcheck] at h
    cases strategy with
    | topDown =>
      have hready := Grammar.topDownReady_of_check hcheck
      obtain ⟨r, hrun, htaken⟩ := Machine.accepted_of_report? h hok
      obtain ⟨word, hi, hlength⟩ := Machine.stops_of_accepted start hrun
        fun _ _ _ hstops => TopDown.not_halts_ok_of_fault hready hstops list
      cases TopDown.result hi hready with
      | found path hsolves _ hhalts =>
        obtain ⟨d, hgrows, hpre, rfl⟩ :=
          (TopDown.leftParse_iff_solves.mpr ⟨path, hsolves, rfl⟩).grows
        cases hhalts.unique ⟨_, _, hrun⟩
        exact ⟨start, d, hready.start_eq, hgrows, hpre, hi.brings, htaken.trans hlength⟩
      | exhausted _ hhalts => cases hhalts.unique ⟨_, _, hrun⟩
      | blocked f hf _ => cases hf
    | bottomUp =>
      have hready := Grammar.bottomUpReady_of_check hcheck
      obtain ⟨r, hrun, htaken⟩ := Machine.accepted_of_report? h hok
      obtain ⟨word, hi, hlength⟩ := Machine.stops_of_accepted start hrun
        fun _ _ _ hstops hhalts => by cases hhalts.unique (BottomUp.halts_of_fault hready hstops)
      cases BottomUp.result hi hready with
      | found path hsolves _ hhalts =>
        obtain ⟨d, hgrows, hpost, rfl⟩ :=
          Grammar.Accepts.grows ((BottomUp.accepts_iff_solves hready).mpr ⟨path, hsolves, rfl⟩)
        cases hhalts.unique ⟨_, _, hrun⟩
        refine ⟨start, d, hready.start_eq, hgrows, ?_, hi.brings, htaken.trans hlength⟩
        rw [derivation, hpost, List.reverse_reverse]
      | exhausted _ hhalts => cases hhalts.unique ⟨_, _, hrun⟩
      | blocked f hf _ => cases hf

/-- Whenever a parser returns a derivation, of whatever input, the derivation can be replayed. The
tree is rooted at the start, its inner nodes are instances of productions, and its leaves are the
symbols of the input up to its first end, all of which have been taken. -/
theorem parse_ok_tree (h : strategy.parse g source sink moves = some report)
    (hok : report.outcome = .ok list) :
    ∃ start tree, g.start = some start ∧ strategy.tree g list = .ok tree ∧
      tree.symbol = .nonterminal start ∧ tree.Follows g ∧ source.Brings tree.leaves ∧
      report.taken = tree.leaves.length := by
  obtain ⟨start, d, hstart, hgrows, rfl, hbrings, htaken⟩ := exists_labelledTree h hok
  refine ⟨start, d.erase, hstart, tree_derivation hstart hgrows,
    LabelledTree.symbol_erase hgrows, LabelledTree.follows_erase hgrows, ?_, ?_⟩
  · rw [LabelledTree.leaves_erase hgrows]
    exact hbrings
  · rw [LabelledTree.leaves_erase hgrows]
    exact htaken

/-- A sum that ends in the middle. -/
def cutOff : Source Char Char :=
  .ofAnswers [some (.terminal 'x'), some (.terminal '+'), some (.terminal 'x'), none,
    some (.terminal '+')]

theorem parse_ok_tree_cutOff :
    ∃ report, Strategy.bottomUp.parse BottomUp.sums cutOff (.new none) 20 = some report ∧
      report.outcome = .ok [1, 2, 3, 2, 3] ∧
      ∃ start tree, BottomUp.sums.start = some start ∧
        Strategy.bottomUp.tree BottomUp.sums [1, 2, 3, 2, 3] = .ok tree ∧
        tree.symbol = .nonterminal start ∧ tree.Follows BottomUp.sums ∧
        cutOff.Brings tree.leaves ∧ report.taken = tree.leaves.length := by
  have hparse : ∃ report,
      Strategy.bottomUp.parse BottomUp.sums cutOff (.new none) 20 = some report ∧
        report.outcome = .ok [1, 2, 3, 2, 3] := ⟨_, rfl, rfl⟩
  obtain ⟨report, hreport, hok⟩ := hparse
  exact ⟨report, hreport, hok, parse_ok_tree hreport hok⟩

end Strategy

end ContextFree
