import ContextFree.Parse
import ContextFree.Proofs.Reading
import Mathlib.Logic.Relation

namespace ContextFree

open Relation

variable {P V T : Type}

namespace Machine

/-- One configuration follows another whatever has been read before. -/
def Moves (m : Machine P V T) (input : Input V T) (c c' : Configuration P V T) : Prop :=
  ∀ r : Reader V T, r.Live input → ∃ r' : Reader V T, r'.Live input ∧
    m.advance input (.running ⟨c, r, .silent⟩) = .running ⟨c', r', .silent⟩

/-- The run meets a fault of the input in a configuration, whatever has been read before. -/
def Breaks (m : Machine P V T) (input : Input V T) (f : InputFault V T)
    (c : Configuration P V T) : Prop :=
  ∀ r : Reader V T, r.Live input → ∃ r' : Reader V T,
    m.advance input (.running ⟨c, r, .silent⟩) = .halted (.error (.badInput f)) r' .silent

/-- A run without a trace comes to an outcome. -/
def Halts (m : Machine P V T) (input : Input V T)
    (outcome : Except (ParseError V T) (List Nat)) : Prop :=
  ∃ moves r, m.run input moves (m.start .silent) = .halted outcome r .silent

variable {m : Machine P V T} {input : Input V T} {c c' : Configuration P V T}

/-- What one move does to a run, by the move of the automaton and by what a look brings. -/
inductive Advanced (m : Machine P V T) (input : Input V T) (c : Configuration P V T)
    (r : Reader V T) (sink : Sink) : Run P V T → Prop
  | accepted {derivation : List Nat} (hmove : m.move c = .accept derivation) :
      Advanced m input c r sink (.halted (.ok derivation) r sink)
  | rejected (hmove : m.move c = .reject) :
      Advanced m input c r sink (.halted (.error .noDerivation) r sink)
  | entered {c' : Configuration P V T} (hmove : m.move c = .enter c') :
      Advanced m input c r sink (m.enter c' r sink)
  | faulty {next : Option T → Configuration P V T} {f : InputFault V T}
      (hmove : m.move c = .look next) (hfault : (r.readTo input c.cursor).status = .failed f) :
      Advanced m input c r sink (.halted (.error (.badInput f)) (r.readTo input c.cursor) sink)
  | looked {next : Option T → Configuration P V T} (hmove : m.move c = .look next)
      (hfree : ∀ f, (r.readTo input c.cursor).status ≠ .failed f) :
      Advanced m input c r sink
        (m.enter (next ((r.readTo input c.cursor).seen c.cursor)) (r.readTo input c.cursor) sink)

theorem advanced_advance (m : Machine P V T) (input : Input V T) (c : Configuration P V T)
    (r : Reader V T) (sink : Sink) :
    m.Advanced input c r sink (m.advance input (.running ⟨c, r, sink⟩)) := by
  cases hm : m.move c with
  | accept derivation =>
    simp only [advance, hm]
    exact .accepted hm
  | reject =>
    simp only [advance, hm]
    exact .rejected hm
  | enter c' =>
    simp only [advance, hm]
    exact .entered hm
  | look next =>
    simp only [advance, hm]
    split
    · rename_i f hf
      exact .faulty hm hf
    · exact .looked hm (by assumption)

theorem advanced_of_advance {r : Reader V T} {sink : Sink} {run : Run P V T}
    (h : m.advance input (.running ⟨c, r, sink⟩) = run) : m.Advanced input c r sink run :=
  h ▸ advanced_advance m input c r sink

/-- A move does not look at the trace: it halts or it enters a configuration, whatever the sink. -/
theorem advance_forms (m : Machine P V T) (input : Input V T) (c : Configuration P V T)
    (r : Reader V T) :
    (∃ outcome r', ∀ sink,
        m.advance input (.running ⟨c, r, sink⟩) = .halted outcome r' sink) ∨
      ∃ c' r', ∀ sink, m.advance input (.running ⟨c, r, sink⟩) = m.enter c' r' sink := by
  cases hm : m.move c with
  | accept derivation => exact .inl ⟨_, _, fun sink => by simp only [advance, hm]; rfl⟩
  | reject => exact .inl ⟨_, _, fun sink => by simp only [advance, hm]; rfl⟩
  | enter c' => exact .inr ⟨_, _, fun sink => by simp only [advance, hm]; rfl⟩
  | look next =>
    cases hstatus : (r.readTo input c.cursor).status with
    | failed f => exact .inl ⟨_, _, fun sink => by simp only [advance, hm, hstatus]; rfl⟩
    | ready => exact .inr ⟨_, _, fun sink => by simp only [advance, hm, hstatus]; rfl⟩
    | ended => exact .inr ⟨_, _, fun sink => by simp only [advance, hm, hstatus]; rfl⟩

theorem run_succ (moves : Nat) (run : Run P V T) :
    m.run input (moves + 1) run = m.advance input (m.run input moves run) :=
  run_add m input moves 1 run

theorem Moves.of_enter (hm : m.move c = .enter c') : m.Moves input c c' := by
  intro r hr
  exact ⟨r, hr, by simp [advance, hm, enter, Sink.write]⟩

section Look

variable {next : Option T → Configuration P V T} {word : List T} {fault : Option (InputFault V T)}
  {i : Nat}

theorem Moves.of_look (hi : input.Stops word fault) (hm : m.move c = .look next)
    (hc : c.cursor = i + 1) {seen : Option T} (hs : Input.sight word fault i = some seen) :
    m.Moves input c (next seen) := by
  intro r hr
  obtain ⟨hlive, hseen⟩ := hr.look hi hs
  refine ⟨_, hlive, ?_⟩
  simp only [advance, hm, hc, hseen]
  split
  · rename_i f hf
    exact False.elim (hlive.not_failed f hf)
  · rfl

theorem Breaks.of_look (hi : input.Stops word fault) (hm : m.move c = .look next)
    (hc : c.cursor = i + 1) (hs : Input.sight word fault i = none) :
    ∃ f, fault = some f ∧ m.Breaks input f c := by
  cases fault with
  | none => simp [Input.sight] at hs
  | some f =>
    refine ⟨f, rfl, fun r hr => ?_⟩
    obtain ⟨f', hf', hstatus⟩ := hr.look_fault hi hs
    cases hf'
    exact ⟨_, by simp only [advance, hm, hc, hstatus]; rfl⟩

end Look

/-- Moves one after the other are a run. -/
theorem run_of_moves (h : ReflTransGen (m.Moves input) c c') {r : Reader V T} (hr : r.Live input) :
    ∃ moves r', r'.Live input ∧
      m.run input moves (.running ⟨c, r, .silent⟩) = .running ⟨c', r', .silent⟩ := by
  induction h with
  | refl => exact ⟨0, r, hr, rfl⟩
  | tail _ hstep ih =>
    obtain ⟨moves, r', hr', hrun⟩ := ih
    obtain ⟨r'', hr'', hadv⟩ := hstep r' hr'
    exact ⟨moves + 1, r'', hr'', by rw [run_succ, hrun, hadv]⟩

/-- A run halts if it gets to a configuration in which the next move ends it. -/
theorem Halts.of_moves {outcome : Except (ParseError V T) (List Nat)}
    (h : ReflTransGen (m.Moves input) m.initial c)
    (hlast : ∀ r : Reader V T, r.Live input → ∃ r' : Reader V T,
      m.advance input (.running ⟨c, r, .silent⟩) = .halted outcome r' .silent) :
    m.Halts input outcome := by
  obtain ⟨moves, r, hr, hrun⟩ := run_of_moves h (Reader.live_start input)
  obtain ⟨r', hadv⟩ := hlast r hr
  refine ⟨moves + 1, r', ?_⟩
  have hstart : m.start .silent = .running ⟨m.initial, .start, .silent⟩ := rfl
  rw [run_succ, hstart, hrun, hadv]

theorem Halts.of_accept {derivation : List Nat} (h : ReflTransGen (m.Moves input) m.initial c)
    (hm : m.move c = .accept derivation) : m.Halts input (.ok derivation) :=
  .of_moves h fun r _ => ⟨r, by simp [advance, hm]⟩

theorem Halts.of_reject (h : ReflTransGen (m.Moves input) m.initial c)
    (hm : m.move c = .reject) : m.Halts input (.error .noDerivation) :=
  .of_moves h fun r _ => ⟨r, by simp [advance, hm]⟩

theorem Halts.of_breaks {f : InputFault V T} (h : ReflTransGen (m.Moves input) m.initial c)
    (hb : m.Breaks input f c) : m.Halts input (.error (.badInput f)) :=
  .of_moves h hb

/-- A run that halts without a trace halts with every trace: it goes the same way, unless a line is
refused. -/
theorem halted_of_silent (sink : Sink) {moves : Nat} {r r' : Reader V T}
    {outcome : Except (ParseError V T) (List Nat)}
    (h : m.run input moves (.running ⟨c, r, .silent⟩) = .halted outcome r' .silent) :
    ∃ outcome' r'' sink',
      m.run input moves (.running ⟨c, r, sink⟩) = .halted outcome' r'' sink' := by
  induction moves generalizing c r sink with
  | zero => cases h
  | succ moves ih =>
    have henter : ∀ c' r₁, m.run input moves (m.enter c' r₁ .silent) = .halted outcome r' .silent →
        ∃ outcome' r'' sink',
          m.run input moves (m.enter c' r₁ sink) = .halted outcome' r'' sink' := by
      intro c' r₁ hrun
      cases hw : sink.write m.line c' with
      | none => exact ⟨_, _, _, by rw [enter, hw]; exact run_halted ..⟩
      | some sink' =>
        rw [enter, hw]
        exact ih sink' hrun
    rw [run] at h ⊢
    rcases m.advance_forms input c r with ⟨_, _, hhalt⟩ | ⟨c', r₁, hgo⟩
    · rw [hhalt]
      exact ⟨_, _, _, run_halted ..⟩
    · rw [hgo] at h ⊢
      exact henter c' r₁ h

/-- A run that halts with a trace, and not because a line is refused, goes the same way without. -/
theorem silent_of_halted {sink sink' : Sink} {moves : Nat} {r r' : Reader V T}
    {outcome : Except (ParseError V T) (List Nat)} (ho : outcome ≠ .error .traceRefused)
    (h : m.run input moves (m.enter c r sink) = .halted outcome r' sink') :
    m.run input moves (m.enter c r .silent) = .halted outcome r' .silent := by
  induction moves generalizing c r sink with
  | zero =>
    rw [run, enter] at h
    cases hw : sink.write m.line c with
    | none =>
      rw [hw] at h
      cases h
      exact False.elim (ho rfl)
    | some sink₁ =>
      rw [hw] at h
      cases h
  | succ moves ih =>
    cases hw : sink.write m.line c with
    | none =>
      rw [enter, hw, run_halted] at h
      cases h
      exact False.elim (ho rfl)
    | some sink₁ =>
      rw [enter, hw, run] at h
      rw [enter, Sink.write, run]
      rcases m.advance_forms input c r with ⟨_, _, hhalt⟩ | ⟨c', r₁, hgo⟩
      · rw [hhalt, run_halted] at h ⊢
        cases h
        rfl
      · rw [hgo] at h ⊢
        exact ih h

/-- A run halts in one way only. -/
theorem halted_unique {run : Run P V T} {moves moves' : Nat} {r r' : Reader V T}
    {sink sink' : Sink} {outcome outcome' : Except (ParseError V T) (List Nat)}
    (h : m.run input moves run = .halted outcome r sink)
    (h' : m.run input moves' run = .halted outcome' r' sink') :
    outcome = outcome' ∧ r = r' ∧ sink = sink' := by
  have hlong : m.run input (moves + moves') run = .halted outcome r sink := by
    rw [run_add, h, run_halted]
  have hlong' : m.run input (moves + moves') run = .halted outcome' r' sink' := by
    rw [Nat.add_comm, run_add, h', run_halted]
  rw [hlong] at hlong'
  cases hlong'
  exact ⟨rfl, rfl, rfl⟩

theorem Halts.unique {outcome outcome' : Except (ParseError V T) (List Nat)}
    (h : m.Halts input outcome) (h' : m.Halts input outcome') : outcome = outcome' := by
  obtain ⟨moves, r, hrun⟩ := h
  obtain ⟨moves', r', hrun'⟩ := h'
  exact (halted_unique hrun hrun').1

/-- A run that halts without a trace halts with a trace to any sink. -/
theorem Halts.halted {outcome : Except (ParseError V T) (List Nat)} (h : m.Halts input outcome)
    (sink : Sink) :
    ∃ moves outcome' r sink', m.run input moves (m.start sink) = .halted outcome' r sink' := by
  obtain ⟨moves, r, hrun⟩ := h
  unfold start enter
  cases hw : sink.write m.line m.initial with
  | none => exact ⟨0, _, _, _, rfl⟩
  | some sink' =>
    obtain ⟨outcome', r', sink'', hrun'⟩ := halted_of_silent sink' hrun
    exact ⟨moves, outcome', r', sink'', hrun'⟩

/-- A run that has halted gives the same report whatever number of further moves is granted. -/
theorem report?_of_halted {moves : Nat} {outcome : Except (ParseError V T) (List Nat)}
    {r : Reader V T} {sink sink' : Sink}
    (h : m.run input moves (m.start sink) = .halted outcome r sink') (more : Nat) :
    m.report? input sink (moves + more) = some ⟨outcome, r.taken, sink'.lines⟩ := by
  rw [report?, run_add, h, run_halted]
  rfl

/-- A report stays the same with further moves. -/
theorem report?_add {moves : Nat} {sink : Sink} {report : Report V T}
    (h : m.report? input sink moves = some report) (more : Nat) :
    m.report? input sink (moves + more) = some report := by
  rw [report?] at h ⊢
  rw [run_add]
  cases hrun : m.run input moves (m.start sink) with
  | running s =>
    rw [hrun] at h
    cases h
  | halted outcome r sink' =>
    rw [run_halted, ← hrun]
    exact h

/-- The run behind a report has halted with the outcome reported. -/
theorem halted_of_report? {moves : Nat} {sink : Sink} {report : Report V T}
    (h : m.report? input sink moves = some report) :
    ∃ r sink', m.run input moves (m.start sink) = .halted report.outcome r sink' ∧
      report.taken = r.taken := by
  unfold report? at h
  cases hrun : m.run input moves (m.start sink) with
  | running s =>
    rw [hrun] at h
    cases h
  | halted outcome r sink' =>
    rw [hrun] at h
    cases h
    exact ⟨r, sink', rfl, rfl⟩

theorem Halts.report {outcome : Except (ParseError V T) (List Nat)} (h : m.Halts input outcome) :
    ∃ moves report, report.outcome = outcome ∧
      ∀ more, m.report? input .silent (moves + more) = some report := by
  obtain ⟨moves, r, hrun⟩ := h
  exact ⟨moves, ⟨outcome, r.taken, []⟩, rfl, report?_of_halted hrun⟩

end Machine

end ContextFree
