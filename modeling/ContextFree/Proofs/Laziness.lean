import ContextFree.Proofs.Requests
import ContextFree.Proofs.TopDown.Exact

namespace ContextFree

variable {P V T : Type}

namespace Reader

variable {input : Input V T} {r : Reader V T} {f : InputFault V T}

theorem Live.isSome_of_lt_taken (h : r.Live input) {i : Nat} (hi : i < r.taken) :
    (input.source i).isSome := by
  rw [h.taken] at hi
  exact Input.isSome_of_answer (h.buffer i _ (Array.getElem?_eq_getElem hi))

theorem Live.source_taken (h : r.Live input) (hr : r.status = .ended) :
    input.source r.taken = none := by
  rw [h.taken]
  exact Input.answer_eq_none.mp (h.answer_of_ended hr)

theorem Failed.isSome_of_lt_taken (h : r.Failed input f) {i : Nat} (hi : i < r.taken) :
    (input.source i).isSome := by
  rw [h.taken] at hi
  rcases Nat.lt_or_eq_of_le (Nat.le_of_lt_succ hi) with hlt | rfl
  · exact Input.isSome_of_answer (h.buffer i _ (Array.getElem?_eq_getElem hlt))
  · exact Input.isSome_of_answer h.fault

end Reader

/-- Every symbol taken has come from the source, and so has an end that has been met. -/
theorem Run.Sound.drawn {input : Input V T} {run : Run P V T} (h : run.Sound input) :
    (∀ i < run.reader.taken, (input.source i).isSome) ∧
      (run.reader.status = .ended → input.source run.reader.taken = none) := by
  cases run with
  | running s =>
    have hlive : s.reader.Live input := h
    exact ⟨fun i hi => hlive.isSome_of_lt_taken hi, hlive.source_taken⟩
  | halted outcome r sink =>
    rcases h with ⟨hlive, _⟩ | ⟨f, hfailed, _⟩
    · exact ⟨fun i hi => hlive.isSome_of_lt_taken hi, hlive.source_taken⟩
    · refine ⟨fun i hi => hfailed.isSome_of_lt_taken hi, fun hended => ?_⟩
      have hstatus : r.status = .ended := hended
      rw [hfailed.status] at hstatus
      cases hstatus

/-- The run behind a report is what the report tells of. -/
theorem Run.taken_of_report? {run : Run P V T} {report : Report V T}
    (h : run.report? = some report) : report.taken = run.reader.taken := by
  cases run with
  | running s => cases h
  | halted outcome r sink =>
    cases h
    rfl

namespace Strategy

variable [DecidableEq V] [DecidableEq T] [Name V] [Name T]

/-- What a parse has read of its input after a number of moves: nothing, if the grammar has a
defect. -/
def reader (strategy : Strategy) (g : Grammar V T) (source : Source V T) (sink : Sink)
    (moves : Nat) : Reader V T :=
  let input : Input V T := ⟨source, g.isTerminal⟩
  match strategy.check g with
  | .error _ => .start
  | .ok start =>
    match strategy with
    | topDown =>
      ((TopDown.machine g start).run input moves ((TopDown.machine g start).start sink)).reader
    | bottomUp =>
      ((BottomUp.machine g start).run input moves ((BottomUp.machine g start).start sink)).reader

variable {strategy : Strategy} {g : Grammar V T} {x y : Source V T} {sink : Sink} {moves : Nat}
  {report : Report V T}

theorem taken_of_parse (h : strategy.parse g x sink moves = some report) :
    report.taken = (strategy.reader g x sink moves).taken := by
  unfold parse at h
  unfold reader
  cases hcheck : strategy.check g with
  | error defect =>
    rw [hcheck] at h
    cases h
    rfl
  | ok start =>
    rw [hcheck] at h
    cases strategy with
    | topDown => exact Run.taken_of_report? h
    | bottomUp => exact Run.taken_of_report? h

theorem drawn_reader (strategy : Strategy) (g : Grammar V T) (x : Source V T) (sink : Sink)
    (moves : Nat) :
    (∀ i < (strategy.reader g x sink moves).taken, (x i).isSome) ∧
      ((strategy.reader g x sink moves).status = .ended →
        x (strategy.reader g x sink moves).taken = none) := by
  unfold reader
  cases strategy.check g with
  | error defect => exact ⟨fun i hi => False.elim (Nat.not_lt_zero i hi), fun h => by cases h⟩
  | ok start =>
    cases strategy with
    | topDown => exact (Machine.sound _ _ sink moves).drawn
    | bottomUp => exact (Machine.sound _ _ sink moves).drawn

/-- Inputs that agree on the requests made by a parse are parsed in the same way. -/
theorem parse_congr (h : ∀ i < (strategy.reader g x sink moves).requests, y i = x i) :
    strategy.parse g y sink moves = strategy.parse g x sink moves := by
  unfold reader at h
  unfold parse
  cases hcheck : strategy.check g with
  | error defect => rfl
  | ok start =>
    rw [hcheck] at h
    cases strategy with
    | topDown => exact congrArg Run.report? (Machine.run_congr moves h)
    | bottomUp => exact congrArg Run.report? (Machine.run_congr moves h)

/-- A parse that comes to a report has taken symbols only. If it has met no end, every input that
begins with them leads to the same report. If it has met an end behind them, so does every input
that begins with them and then ends, whatever it would bring later. -/
theorem parse_of_same_beginning (strategy : Strategy) (g : Grammar V T) (x : Source V T)
    (sink : Sink) (moves : Nat) (report : Report V T)
    (hreport : strategy.parse g x sink moves = some report) :
    (∀ i < report.taken, (x i).isSome) ∧
      ((strategy.reader g x sink moves).status ≠ .ended →
        ∀ y : Source V T, (∀ i < report.taken, y i = x i) →
          strategy.parse g y sink moves = some report) ∧
      ((strategy.reader g x sink moves).status = .ended →
        x report.taken = none ∧
          ∀ y : Source V T, (∀ i < report.taken, y i = x i) → y report.taken = none →
            strategy.parse g y sink moves = some report) := by
  obtain ⟨hsymbols, hend⟩ := drawn_reader strategy g x sink moves
  rw [taken_of_parse hreport]
  refine ⟨hsymbols, ?_, ?_⟩
  · intro hstatus y hy
    rw [← hreport]
    apply parse_congr
    rw [Reader.requests_of_not_ended hstatus]
    exact hy
  · intro hstatus
    refine ⟨hend hstatus, fun y hy hlast => ?_⟩
    rw [← hreport]
    apply parse_congr
    rw [Reader.requests_of_ended hstatus]
    intro i hi
    rcases Nat.lt_or_eq_of_le (Nat.le_of_lt_succ hi) with hlt | rfl
    · exact hy i hlt
    · rw [hlast, hend hstatus]

/-- An input that ends behind an `a` and would go on with a `b`. -/
def interrupted : Source Char Char :=
  .ofAnswers [some (.terminal 'a'), none, some (.terminal 'b')]

/-- Every input with an end behind an `a` is accepted by top-down parsing with the same trace as the
interrupted one. -/
theorem parse_of_same_beginning_interrupted :
    ∃ report, Strategy.topDown.parse TopDown.optionalEnds interrupted (.new none) 20 = some report ∧
      (Strategy.topDown.reader TopDown.optionalEnds interrupted (.new none) 20).status = .ended ∧
      report.outcome = .ok [1, 2, 4] ∧ report.taken = 1 ∧
      ∀ y : Source Char Char, y 0 = some (.terminal 'a') → y 1 = none →
        Strategy.topDown.parse TopDown.optionalEnds y (.new none) 20 = some report := by
  have hreport : ∃ report, Strategy.topDown.parse TopDown.optionalEnds interrupted (.new none) 20 =
      some report ∧ report.outcome = .ok [1, 2, 4] ∧ report.taken = 1 := ⟨_, rfl, rfl, rfl⟩
  obtain ⟨report, hparse, houtcome, htaken⟩ := hreport
  have hended : (Strategy.topDown.reader TopDown.optionalEnds interrupted (.new none) 20).status =
      .ended := by rfl
  refine ⟨report, hparse, hended, houtcome, htaken, fun y hfirst hlast => ?_⟩
  obtain ⟨_, hsame⟩ :=
    (parse_of_same_beginning .topDown TopDown.optionalEnds _ _ _ report hparse).2.2 hended
  rw [htaken] at hsame
  refine hsame y (fun i hi => ?_) hlast
  rw [Nat.lt_one_iff.mp hi]
  exact hfirst

end Strategy

end ContextFree
