import ContextFree.Proofs.Faults
import ContextFree.Proofs.Invariant

namespace ContextFree.BottomUp

variable {V T : Type}

/-- The number of terminals shifted. -/
def shifts (history : List (Point V T)) : Nat :=
  history.countP fun a => a matches .shift

theorem shifts_shift (history : List (Point V T)) :
    shifts (.shift :: history) = shifts history + 1 := by
  simp [shifts]

theorem shifts_reduce (p : Production V T) (history : List (Point V T)) :
    shifts (.reduce p :: history) = shifts history := by
  simp [shifts]

/-- The cursor stands behind the terminals shifted, and only new choices are made before the input
has ended. -/
structure Patient (c : Config V T) (r : Reader V T) : Prop where
  cursor : c.cursor = shifts c.history + 1
  ended : c.mode ≠ .querying → r.status = .ended

variable {c : Config V T} {r : Reader V T} {older : List (Point V T)}

theorem patient_reduce (hcursor : c.cursor = shifts older + 1) (p : Production V T)
    (stack : List (Symbol V T)) : Patient (reduce c p older stack) r :=
  ⟨by rw [reduce, shifts_reduce, hcursor], fun h => False.elim (h rfl)⟩

theorem patient_shift (hcursor : c.cursor = shifts older + 1) (t : T)
    (stack : List (Symbol V T)) : Patient (shift c t older stack) r :=
  ⟨by rw [shift, shifts_shift, hcursor], fun h => False.elim (h rfl)⟩

theorem patient_shiftOrUndo (hcursor : c.cursor = shifts older + 1) (stack : List (Symbol V T))
    {seen : Option T} (hseen : seen = none → r.status = .ended) :
    Patient (shiftOrUndo c older stack seen) r := by
  cases seen with
  | some t => exact patient_shift hcursor t stack
  | none => exact ⟨hcursor, fun _ => hseen rfl⟩

/-- A history without its latest choice, if that was a reduction which is to be replaced. -/
def Keeps (history older : List (Point V T)) : Prop :=
  older = history ∨ ∃ p, history = .reduce p :: older

theorem Keeps.shifts_eq {history : List (Point V T)} (h : Keeps history older) :
    shifts older = shifts history := by
  rcases h with rfl | ⟨p, rfl⟩
  · rfl
  · rw [shifts_reduce]

/-- All that a move can be: a reduction, a shift unless the input ends, a look for the end behind a
stack that could be accepted, a shift taken back, or the last move. -/
inductive Choice (c : Config V T) : Move (Point V T) V T → Prop
  | reduce {older : List (Point V T)} (p : Production V T) (stack : List (Symbol V T))
      (hkeeps : Keeps c.history older) : Choice c (.enter (reduce c p older stack))
  | shiftOrUndo {older : List (Point V T)} (stack : List (Symbol V T))
      (hkeeps : Keeps c.history older) : Choice c (.look (shiftOrUndo c older stack))
  | close {next : Option T → Config V T} (hend : next none = { c with mode := .accepting })
      (hgo : ∀ t, next (some t) = shift c t c.history c.symbols ∨
        ∃ p, next (some t) = BottomUp.reduce c p c.history c.symbols) : Choice c (.look next)
  | unshift {older : List (Point V T)} (hmode : c.mode = .backtracking)
      (hhistory : c.history = .shift :: older) :
      Choice c (.enter { c with cursor := c.cursor - 1, history := older, symbols := c.symbols.tail })
  | accept (derivation : List Nat) (hmode : c.mode = .accepting) : Choice c (.accept derivation)
  | reject (hmode : c.mode = .backtracking) : Choice c .reject

section Moves

variable [DecidableEq V] [DecidableEq T]

theorem choice_query (index : Grouping (Symbol V T) (Production V T)) (start : V)
    (c : Config V T) : Choice c (query index start c) := by
  simp only [query]
  split
  · refine .close rfl fun t => ?_
    cases nextReduction index c.symbols 0 with
    | some p => exact .inr ⟨p, rfl⟩
    | none => exact .inl rfl
  · split
    · exact .reduce _ _ (.inl rfl)
    · exact .shiftOrUndo _ (.inl rfl)

theorem choice_backtrack (index : Grouping (Symbol V T) (Production V T))
    (hmode : c.mode = .backtracking) : Choice c (backtrack index c) := by
  unfold backtrack
  split
  · exact .reject hmode
  · rename_i older hhistory
    exact .unshift hmode hhistory
  · rename_i p older hhistory
    have hkeeps : Keeps c.history older := .inr ⟨p, hhistory⟩
    dsimp only
    split
    · exact .reduce _ _ hkeeps
    · exact .shiftOrUndo _ hkeeps

theorem choice_move (index : Grouping (Symbol V T) (Production V T)) (start : V)
    (c : Config V T) : Choice c (move index start c) := by
  unfold move
  split
  · exact choice_query index start c
  · rename_i hmode
    exact choice_backtrack index hmode
  · rename_i hmode
    exact .accept _ hmode

end Moves

theorem Patient.keeps (h : Patient c r) (hkeeps : Keeps c.history older) :
    c.cursor = shifts older + 1 := by
  rw [h.cursor, hkeeps.shifts_eq]

theorem Patient.unshift (h : Patient c r) (hhistory : c.history = .shift :: older) :
    Patient { c with cursor := c.cursor - 1, history := older, symbols := c.symbols.tail } r := by
  refine ⟨?_, h.ended⟩
  have hcursor := h.cursor
  rw [hhistory, shifts_shift] at hcursor
  simp only [hcursor, Nat.add_sub_cancel]

theorem Patient.close (h : Patient c r) {next : Option T → Config V T}
    (hend : next none = { c with mode := .accepting })
    (hgo : ∀ t, next (some t) = shift c t c.history c.symbols ∨
      ∃ p, next (some t) = reduce c p c.history c.symbols) {r' : Reader V T} {seen : Option T}
    (hseen : seen = none → r'.status = .ended) : Patient (next seen) r' := by
  cases seen with
  | none =>
    rw [hend]
    exact ⟨h.cursor, fun _ => hseen rfl⟩
  | some t =>
    rcases hgo t with hnext | ⟨p, hnext⟩
    · exact hnext ▸ patient_shift h.cursor t c.symbols
    · exact hnext ▸ patient_reduce h.cursor p c.symbols

variable [DecidableEq V] [DecidableEq T] [Name V] [Name T] {g : Grammar V T} {start : V}
  {input : Input V T}

theorem choice_of_move {chosen : Move (Point V T) V T} (h : (machine g start).move c = chosen) :
    Choice c chosen :=
  h ▸ choice_move _ start c

/-- The automaton is patient on every input. -/
theorem invariant_patient (g : Grammar V T) (start : V) (input : Input V T) :
    (machine g start).Invariant input Patient where
  initial := ⟨rfl, fun h => False.elim (h rfl)⟩
  enter := by
    intro c r c' h hmove
    cases choice_of_move hmove with
    | reduce p stack hkeeps => exact patient_reduce (h.keeps hkeeps) p stack
    | unshift _ hhistory => exact h.unshift hhistory
  look := by
    intro c r next h hmove hlive
    have hseen : (r.readTo input c.cursor).seen c.cursor = none →
        (r.readTo input c.cursor).status = .ended := by
      rw [h.cursor] at hlive ⊢
      exact hlive.ended_of_seen
    cases choice_of_move hmove with
    | shiftOrUndo stack hkeeps => exact patient_shiftOrUndo (h.keeps hkeeps) stack hseen
    | close hend hgo => exact h.close hend hgo hseen

section Halted

variable {sink sink' : Sink} {moves : Nat} {outcome : Except (ParseError V T) (List Nat)}

/-- A run halts when it has met an end or a fault of its input, unless a line is refused. -/
theorem halted_cases
    (hrun : (machine g start).run input moves ((machine g start).start sink) =
      .halted outcome r sink') :
    (r.Live input ∧ r.status = .ended) ∨
      (∃ f, r.Failed input f ∧ outcome = .error (.badInput f)) ∨
        outcome = .error .traceRefused := by
  have hkept := (invariant_patient g start input).kept sink moves
  rw [hrun] at hkept
  cases hkept with
  | accepted hlive hpatient hmove =>
    cases choice_of_move hmove with
    | accept _ hmode => exact .inl ⟨hlive, hpatient.ended (by simp [hmode])⟩
  | rejected hlive hpatient hmove =>
    cases choice_of_move hmove with
    | reject hmode => exact .inl ⟨hlive, hpatient.ended (by simp [hmode])⟩
  | faulty _ _ _ hfailed => exact .inr (.inl ⟨_, hfailed, rfl⟩)
  | refused _ _ => exact .inr (.inr rfl)

theorem halted_of_fault {word : List T} {f : InputFault V T} (hsink : sink.Unlimited)
    (hi : input.Stops word (some f))
    (hrun : (machine g start).run input moves ((machine g start).start sink) =
      .halted outcome r sink') :
    outcome = .error (.badInput f) ∧ r.taken = word.length + 1 := by
  rcases halted_cases hrun with ⟨hlive, hended⟩ | ⟨f', hfailed, houtcome⟩ | hrefused
  · cases (hi.unique (hlive.stops_of_ended hended)).2
  · obtain ⟨_, hf⟩ := hi.unique hfailed.stops
    cases hf
    exact ⟨houtcome, hfailed.taken_eq hi⟩
  · exact False.elim (Machine.not_refused hsink hrun hrefused)

theorem not_halted_of_endless (hsink : sink.Unlimited)
    (hendless : ∀ n, ∃ t, input.answer n = some (.ok t)) :
    (machine g start).run input moves ((machine g start).start sink) ≠
      .halted outcome r sink' := by
  intro hrun
  rcases halted_cases hrun with ⟨hlive, hended⟩ | ⟨f, hfailed, _⟩ | hrefused
  · obtain ⟨t, ht⟩ := hendless r.buffer.size
    cases ht.symm.trans (hlive.answer_of_ended hended)
  · obtain ⟨t, ht⟩ := hendless r.buffer.size
    cases ht.symm.trans hfailed.fault
  · exact Machine.not_refused hsink hrun hrefused

end Halted

/-- Bottom-up parsing undoes no choice before it has met the end of its input. So the first bad
symbol of an input is always reported, behind exactly the symbols up to it; a derivation is returned
or denied only when the input has been read to its end, and is a word of the alphabet; and on an
endless input of letters of the alphabet there is no outcome. -/
theorem parse_exhausts_input (accepted : g.checkBottomUp = .ok start) (source : Source V T) :
    (∀ sink moves c reader sink',
      (machine g start).run ⟨source, g.isTerminal⟩ moves ((machine g start).start sink) =
        .running ⟨c, reader, sink'⟩ →
      c.mode = .backtracking → reader.status = .ended ∧ source reader.taken = none) ∧
    (∀ word f, (⟨source, g.isTerminal⟩ : Input V T).Stops word (some f) →
      ∀ sink : Sink, sink.Unlimited → ∃ moves report,
        (∀ more, Strategy.bottomUp.parse g source sink (moves + more) = some report) ∧
          report.outcome = .error (.badInput f) ∧ report.taken = word.length + 1) ∧
    (∀ sink moves report, Strategy.bottomUp.parse g source sink moves = some report →
      ((∃ list, report.outcome = .ok list) ∨ report.outcome = .error .noDerivation) →
      ∃ word, (⟨source, g.isTerminal⟩ : Input V T).Stops word none ∧
        report.taken = word.length) ∧
    ((∀ n, ∃ t, source n = some (.terminal t) ∧ g.isTerminal t) →
      ∀ sink : Sink, sink.Unlimited → ∀ moves,
        Strategy.bottomUp.parse g source sink moves = none) := by
  simp only [parse_eq_report accepted]
  refine ⟨?_, ?_, ?_, ?_⟩
  · intro sink moves c reader sink' hrun hmode
    have hkept := (invariant_patient g start ⟨source, g.isTerminal⟩).kept sink moves
    rw [hrun] at hkept
    cases hkept with
    | running hlive hpatient =>
      have hended := hpatient.ended (by simp [hmode])
      refine ⟨hended, ?_⟩
      rw [hlive.taken]
      exact Input.answer_eq_none.mp (hlive.answer_of_ended hended)
  · intro word f hi sink hsink
    obtain ⟨moves, outcome, r, sink', hrun⟩ :=
      (halts_of_fault (Grammar.bottomUpReady_of_check accepted) hi).halted sink
    exact ⟨moves, _, Machine.report?_of_halted hrun, halted_of_fault hsink hi hrun⟩
  · intro sink moves report hreport houtcome
    obtain ⟨r, sink', hrun, htaken⟩ := Machine.halted_of_report? hreport
    rw [htaken]
    rcases halted_cases hrun with ⟨hlive, hended⟩ | ⟨f, _, hfault⟩ | hrefused
    · exact ⟨_, hlive.stops_of_ended hended, hlive.taken⟩
    · simp [hfault] at houtcome
    · simp [hrefused] at houtcome
  · intro hendless sink hsink moves
    refine Option.eq_none_iff_forall_ne_some.mpr fun report hreport => ?_
    obtain ⟨r, sink', hrun, _⟩ := Machine.halted_of_report? hreport
    refine not_halted_of_endless hsink (fun n => ?_) hrun
    obtain ⟨t, ht⟩ := hendless n
    exact ⟨t, Input.answer_eq_ok.mpr ht⟩

/-- A sum that has no second summand. -/
def truncatedSum : Source Char Char :=
  .ofList [.terminal 'x', .terminal '+']

/-- A sum that never ends. -/
def endlessSum : Source Char Char :=
  .cycle [.terminal 'x', .terminal '+']

theorem endlessSum_terminal (n : Nat) :
    ∃ t, endlessSum n = some (.terminal t) ∧ sums.isTerminal t := by
  have hindex : endlessSum n = [Symbol.terminal 'x', .terminal '+'][n % 2]? := by
    simp [endlessSum, Source.cycle]
  rw [hindex]
  rcases Nat.mod_two_eq_zero_or_one n with h | h
  · exact ⟨'x', by rw [h]; rfl, by rfl⟩
  · exact ⟨'+', by rw [h]; rfl, by rfl⟩

/-- The truncated sum is given up behind its end, the unfinished one at its third symbol, and the
endless one never. -/
theorem parse_exhausts_input_sums :
    sums.checkBottomUp = .ok 'E' ∧
      (∃ moves c reader sink',
        (machine sums 'E').run ⟨truncatedSum, sums.isTerminal⟩ moves
          ((machine sums 'E').start .silent) = .running ⟨c, reader, sink'⟩ ∧
        c.mode = .backtracking ∧ reader.status = .ended ∧ truncatedSum reader.taken = none) ∧
      (∃ moves report, Strategy.bottomUp.parse sums truncatedSum .silent moves = some report ∧
        report.outcome = .error .noDerivation ∧
        ∃ word, (⟨truncatedSum, sums.isTerminal⟩ : Input Char Char).Stops word none ∧
          report.taken = word.length) ∧
      (∃ moves report,
        (∀ more, Strategy.bottomUp.parse sums unfinishedSum (.new none) (moves + more) =
          some report) ∧
        report.outcome = .error (.badInput (.notATerminal 3 'V')) ∧ report.taken = 3) ∧
      ∀ moves, Strategy.bottomUp.parse sums endlessSum (.new none) moves = none := by
  have accepted : sums.checkBottomUp = .ok 'E' := by rfl
  have hfault : (⟨unfinishedSum, sums.isTerminal⟩ : Input Char Char).Stops ['x', '+']
      (some (.notATerminal 3 'V')) := by
    refine ⟨fun i t ht => ?_, rfl⟩
    match i with
    | 0 => cases ht; rfl
    | 1 => cases ht; rfl
    | i + 2 => simp at ht
  obtain ⟨hundoes, _, hdecided, _⟩ := parse_exhausts_input accepted truncatedSum
  obtain ⟨_, hbad, _, _⟩ := parse_exhausts_input accepted unfinishedSum
  obtain ⟨_, _, _, hendless⟩ := parse_exhausts_input accepted endlessSum
  refine ⟨accepted, ?_, ?_, hbad _ _ hfault (.new none) rfl,
    hendless endlessSum_terminal (.new none) rfl⟩
  · exact ⟨5, _, _, _, rfl, rfl, hundoes .silent 5 _ _ _ rfl rfl⟩
  · exact ⟨40, _, rfl, rfl, hdecided .silent 40 _ rfl (.inr rfl)⟩

end ContextFree.BottomUp
