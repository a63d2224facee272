import ContextFree.Proofs.ParseTree

namespace ContextFree

variable {P V T : Type}

/-- The outcomes of top-down and of bottom-up parsing that go together. -/
inductive Agree : Except (ParseError V T) (List Nat) → Except (ParseError V T) (List Nat) → Prop
  | accepted (list list' : List Nat) : Agree (.ok list) (.ok list')
  | rejected : Agree (.error .noDerivation) (.error .noDerivation)
  | faulty (f : InputFault V T) : Agree (.error (.badInput f)) (.error (.badInput f))
  | unseen (f : InputFault V T) : Agree (.error .noDerivation) (.error (.badInput f))

section Outcomes

variable [DecidableEq V] [DecidableEq T] {g : Grammar V T} {start : V}

/-- One search has a solution if the other one has: the word can be derived from the start. -/
theorem exists_solves_iff (word : List T) (hup : g.BottomUpReady start) :
    (∃ path, (TopDown.search g word none).Solves ([.nonterminal start], 0) path) ↔
      ∃ path, (BottomUp.search g start word none).Solves ([], 0) path := by
  constructor
  · intro h
    obtain ⟨path, hsolves⟩ := h
    have hleft := TopDown.leftParse_iff_solves.mpr ⟨path, hsolves, rfl⟩
    obtain ⟨actions, haccepts⟩ := Grammar.derives_iff_accepts.mp hleft.derives
    obtain ⟨path', hsolves', _⟩ := (BottomUp.accepts_iff_solves hup).mp haccepts
    exact ⟨path', hsolves'⟩
  · intro h
    obtain ⟨path, hsolves⟩ := h
    have haccepts := (BottomUp.accepts_iff_solves hup).mpr ⟨path, hsolves, rfl⟩
    obtain ⟨list, hleft⟩ := Grammar.derives_iff_leftParse.mp haccepts.rightParse.derives
    obtain ⟨path', hsolves', _⟩ := TopDown.leftParse_iff_solves.mp hleft
    exact ⟨path', hsolves'⟩

variable [Name V] [Name T] {input : Input V T} {word : List T}
  {fault : Option (InputFault V T)}

/-- Both strategies halt on an input that stops, with outcomes that go together. -/
theorem exists_agree (hi : input.Stops word fault) (hdown : g.TopDownReady start)
    (hup : g.BottomUpReady start) :
    ∃ outcome outcome', (TopDown.machine g start).Halts input outcome ∧
      (BottomUp.machine g start).Halts input outcome' ∧ Agree outcome outcome' := by
  cases fault with
  | some f =>
    have hup' := BottomUp.halts_of_fault hup hi
    cases TopDown.result hi hdown with
    | found path hsolves _ _ => exact False.elim (TopDown.not_solves_of_fault _ _ hsolves)
    | exhausted _ hhalts => exact ⟨_, _, hhalts, hup', .unseen f⟩
    | blocked f' hf hhalts =>
      cases hf
      exact ⟨_, _, hhalts, hup', .faulty f⟩
  | none =>
    have hsame := exists_solves_iff word hup
    cases TopDown.result hi hdown with
    | blocked f hf _ => cases hf
    | found path hsolves _ hhalts =>
      cases BottomUp.result hi hup with
      | blocked f hf _ => cases hf
      | found path' _ _ hhalts' => exact ⟨_, _, hhalts, hhalts', .accepted _ _⟩
      | exhausted hnone _ =>
        obtain ⟨path', hsolves'⟩ := hsame.mp ⟨path, hsolves⟩
        exact False.elim (hnone path' hsolves')
    | exhausted hnone hhalts =>
      cases BottomUp.result hi hup with
      | blocked f hf _ => cases hf
      | found path' hsolves' _ _ =>
        obtain ⟨path, hsolves⟩ := hsame.mpr ⟨path', hsolves'⟩
        exact False.elim (hnone path hsolves)
      | exhausted _ hhalts' => exact ⟨_, _, hhalts, hhalts', .rejected⟩

/-- Bottom-up parsing reads all of its input up to the end or the fault. -/
theorem BottomUp.taken_eq_extent {source : Source V T} {isTerminal : T → Bool} {moves : Nat}
    {outcome : Except (ParseError V T) (List Nat)} {r : Reader V T}
    (hready : g.BottomUpReady start) (hi : (⟨source, isTerminal⟩ : Input V T).Stops word fault)
    (hrun : (machine g start).run ⟨source, isTerminal⟩ moves ((machine g start).start .silent) =
      .halted outcome r .silent) : r.taken = Input.extent word fault := by
  have hsound := (machine g start).sound ⟨source, isTerminal⟩ .silent moves
  rw [hrun] at hsound
  rcases hsound with ⟨hlive, hbad⟩ | ⟨f, hfailed, _⟩
  · apply hlive.taken_of_ended hi
    apply Machine.ended_of_halted start hrun hlive
    intro source' word' f hstops hhalts
    exact hbad f (hhalts.unique (halts_of_fault hready hstops))
  · exact hfailed.taken_eq hi

end Outcomes

namespace Strategy

variable [DecidableEq V] [DecidableEq T] [Name V] [Name T] {g : Grammar V T} {start start' : V}
  {source : Source V T}

/-- Of a word with one labelled tree only, both strategies report the derivation of that tree. -/
theorem tree_eq_of_unique {list list' : List Nat} {moves moves' : Nat}
    {report report' : Report V T} {sink sink' : Sink} {word : List T}
    (hstart : g.start = some start)
    (h : Strategy.topDown.parse g source sink moves = some report)
    (hok : report.outcome = .ok list)
    (h' : Strategy.bottomUp.parse g source sink' moves' = some report')
    (hok' : report'.outcome = .ok list') (hword : source.Brings word)
    (hunique : ∃! d, g.Grows [.nonterminal start] [d] ∧ d.word = word) :
    ∃ tree, Strategy.topDown.tree g list = .ok tree ∧
      Strategy.bottomUp.tree g list' = .ok tree := by
  obtain ⟨s, d, hs, hgrows, rfl, hbrings, _⟩ := exists_labelledTree h hok
  obtain ⟨s', d', hs', hgrows', rfl, hbrings', _⟩ := exists_labelledTree h' hok'
  cases hstart.symm.trans hs
  cases hstart.symm.trans hs'
  have hsame : d' = d := hunique.unique ⟨hgrows', hbrings'.unique hword⟩
    ⟨hgrows, hbrings.unique hword⟩
  refine ⟨d.erase, tree_derivation hstart hgrows, ?_⟩
  rw [hsame]
  exact tree_derivation hstart hgrows

/-- With a grammar that both strategies accept, and on an input that ends or has a bad symbol, both
come to reports with outcomes that go together. Top-down parsing takes no more symbols than
bottom-up parsing does, and both derivations of a word with one labelled tree only are replayed as
the same tree. -/
theorem parse_agree (accepted : g.checkTopDown = .ok start)
    (accepted' : g.checkBottomUp = .ok start') (source : Source V T)
    (stops : source.Stops g.isTerminal) :
    ∃ moves report report',
      (∀ more, Strategy.topDown.parse g source .silent (moves + more) = some report) ∧
      (∀ more, Strategy.bottomUp.parse g source .silent (moves + more) = some report') ∧
      Agree report.outcome report'.outcome ∧ report.taken ≤ report'.taken ∧
      ∀ list list' word, report.outcome = .ok list → report'.outcome = .ok list' →
        source.Brings word → (∃! d, g.Grows [.nonterminal start] [d] ∧ d.word = word) →
        ∃ tree, Strategy.topDown.tree g list = .ok tree ∧
          Strategy.bottomUp.tree g list' = .ok tree := by
  have hdown := Grammar.topDownReady_of_check accepted
  have hup := Grammar.bottomUpReady_of_check accepted'
  obtain rfl : start = start' := Option.some.inj (hdown.start_eq.symm.trans hup.start_eq)
  obtain ⟨word, fault, hi⟩ := Input.exists_stops stops
  obtain ⟨outcome, outcome', ⟨moves, r, hrun⟩, ⟨moves', r', hrun'⟩, hagree⟩ :=
    exists_agree hi hdown hup
  have hreport : ∀ more, Strategy.topDown.parse g source .silent (moves + moves' + more) =
      some ⟨outcome, r.taken, []⟩ := by
    intro more
    rw [TopDown.parse_eq_report accepted, Nat.add_assoc]
    exact Machine.report?_of_halted hrun _
  have hreport' : ∀ more, Strategy.bottomUp.parse g source .silent (moves + moves' + more) =
      some ⟨outcome', r'.taken, []⟩ := by
    intro more
    rw [BottomUp.parse_eq_report accepted', Nat.add_comm moves, Nat.add_assoc]
    exact Machine.report?_of_halted hrun' _
  refine ⟨moves + moves', _, _, hreport, hreport', hagree, ?_, ?_⟩
  · have hsound := (TopDown.machine g start).sound ⟨source, g.isTerminal⟩ .silent moves
    have hle := Machine.taken_le_extent hsound hi
    rw [hrun] at hle
    rw [BottomUp.taken_eq_extent hup hi hrun']
    exact hle
  · intro list list' w hok hok' hbrings hunique
    exact tree_eq_of_unique hdown.start_eq (hreport 0) hok (hreport' 0) hok' hbrings hunique

/-- Rows of the letter `a`, one longer than the row of the letter `b` behind it. -/
def rows : Grammar Char Char :=
  .ofRules none [⟨'S', [.terminal 'a', .nonterminal 'S', .terminal 'b']⟩, ⟨'S', [.terminal 'a']⟩]

/-- An input that no row begins with, and in which `c` is no terminal of the alphabet. -/
def strayLetter : Source Char Char :=
  .ofList [.terminal 'b', .terminal 'a', .terminal 'c']

/-- Top-down parsing rejects the input at its first symbol, and so never meets the stray letter. -/
theorem parse_agree_strayLetter :
    rows.checkTopDown = .ok 'S' ∧ rows.checkBottomUp = .ok 'S' ∧
      strayLetter.Stops rows.isTerminal ∧
      ∃ moves report report',
        (∀ more, Strategy.topDown.parse rows strayLetter .silent (moves + more) = some report) ∧
        (∀ more, Strategy.bottomUp.parse rows strayLetter .silent (moves + more) = some report') ∧
        Agree report.outcome report'.outcome ∧ report.taken ≤ report'.taken := by
  have accepted : rows.checkTopDown = .ok 'S' := by rfl
  have accepted' : rows.checkBottomUp = .ok 'S' := by rfl
  have stops : strayLetter.Stops rows.isTerminal := ⟨2, .inr (.inr ⟨'c', rfl, by decide⟩)⟩
  obtain ⟨moves, report, report', hreport, hreport', hagree, htaken, _⟩ :=
    parse_agree accepted accepted' _ stops
  exact ⟨accepted, accepted', stops, moves, report, report', hreport, hreport', hagree, htaken⟩

end Strategy

end ContextFree
