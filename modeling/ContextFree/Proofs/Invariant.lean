import ContextFree.Proofs.Requests

namespace ContextFree

variable {P V T : Type}

namespace Reader

variable {input : Input V T} {r : Reader V T}

/-- A request behind which the reader is still ready has brought a terminal. -/
theorem size_pull (h : (r.pull input).status = .ready) :
    (r.pull input).buffer.size = r.buffer.size + 1 := by
  by_cases hr : r.status = .ready
  · unfold pull at h ⊢
    rw [hr] at h ⊢
    cases hs : input.source r.taken with
    | none => simp [hs] at h
    | some s =>
      cases s with
      | nonterminal v => simp [hs] at h
      | terminal t => by_cases ht : input.isTerminal t <;> simp [hs, ht] at h ⊢
  · rw [pull_not_ready hr] at h
    exact False.elim (hr h)

theorem size_pulls (n : Nat) (h : (r.pulls input n).status = .ready) :
    (r.pulls input n).buffer.size = r.buffer.size + n := by
  induction n generalizing r with
  | zero => rfl
  | succ n ih =>
    have hpull : (r.pull input).status = .ready := by
      refine Classical.byContradiction fun hr => ?_
      rw [pulls, pulls_not_ready hr] at h
      exact hr h
    rw [pulls, ih h, size_pull hpull, Nat.add_assoc, Nat.add_comm 1]

/-- A look that shows no terminal has met an end of the input. -/
theorem Live.ended_of_seen {i : Nat} (h : (r.readTo input (i + 1)).Live input)
    (hseen : (r.readTo input (i + 1)).seen (i + 1) = none) :
    (r.readTo input (i + 1)).status = .ended := by
  rcases h.status with hready | ⟨hended, _⟩
  · have hsize := size_pulls _ hready
    rw [seen, Nat.add_sub_cancel, Array.getElem?_eq_none_iff, Reader.readTo] at hseen
    omega
  · exact hended

end Reader

namespace Machine

/-- A property of configurations and of what has been read in them that every move keeps. -/
structure Invariant (m : Machine P V T) (input : Input V T)
    (inv : Configuration P V T → Reader V T → Prop) : Prop where
  initial : inv m.initial .start
  enter : ∀ c r c', inv c r → m.move c = .enter c' → inv c' r
  look : ∀ c r next, inv c r → m.move c = .look next → (r.readTo input c.cursor).Live input →
    inv (next ((r.readTo input c.cursor).seen c.cursor)) (r.readTo input c.cursor)

/-- The property holds in the last configuration that a run has entered, and if the run has halted,
it has done so by the move from there or by a refused line. -/
inductive Kept (m : Machine P V T) (input : Input V T)
    (inv : Configuration P V T → Reader V T → Prop) : Run P V T → Prop
  | running {c : Configuration P V T} {r : Reader V T} {sink : Sink}
      (hlive : r.Live input) (hinv : inv c r) : Kept m input inv (.running ⟨c, r, sink⟩)
  | accepted {c : Configuration P V T} {r : Reader V T} {sink : Sink} {derivation : List Nat}
      (hlive : r.Live input) (hinv : inv c r) (hmove : m.move c = .accept derivation) :
      Kept m input inv (.halted (.ok derivation) r sink)
  | rejected {c : Configuration P V T} {r : Reader V T} {sink : Sink}
      (hlive : r.Live input) (hinv : inv c r) (hmove : m.move c = .reject) :
      Kept m input inv (.halted (.error .noDerivation) r sink)
  | faulty {c : Configuration P V T} {r r' : Reader V T} {sink : Sink} {f : InputFault V T}
      {next : Option T → Configuration P V T}
      (hinv : inv c r) (hmove : m.move c = .look next) (hread : r.readTo input c.cursor = r')
      (hfailed : r'.Failed input f) : Kept m input inv (.halted (.error (.badInput f)) r' sink)
  | refused {c : Configuration P V T} {r : Reader V T} {sink : Sink}
      (hlive : r.Live input) (hwrite : sink.write m.line c = none) :
      Kept m input inv (.halted (.error .traceRefused) r sink)

variable {m : Machine P V T} {input : Input V T} {inv : Configuration P V T → Reader V T → Prop}

theorem kept_enter {c : Configuration P V T} {r : Reader V T} (hlive : r.Live input)
    (hinv : inv c r) (sink : Sink) : m.Kept input inv (m.enter c r sink) := by
  unfold enter
  cases hwrite : sink.write m.line c with
  | none => exact .refused hlive hwrite
  | some sink => exact .running hlive hinv

theorem Kept.advance (hkeep : m.Invariant input inv) {run : Run P V T}
    (h : m.Kept input inv run) : m.Kept input inv (m.advance input run) := by
  cases run with
  | halted outcome r sink => exact h
  | running s =>
    cases h with
    | @running c r sink hlive hinv =>
      generalize hrun : m.advance input (.running ⟨c, r, sink⟩) = run'
      cases advanced_of_advance hrun with
      | accepted hmove => exact .accepted hlive hinv hmove
      | rejected hmove => exact .rejected hlive hinv hmove
      | entered hmove => exact kept_enter hlive (hkeep.enter c r _ hinv hmove) sink
      | faulty hmove hf => exact .faulty hinv hmove rfl (hlive.failed_readTo hf)
      | looked hmove hfree =>
        have hlive' := hlive.live_readTo hfree
        exact kept_enter hlive' (hkeep.look c r _ hinv hmove hlive') sink

/-- An invariant holds along every run. -/
theorem Invariant.kept (hkeep : m.Invariant input inv) (sink : Sink) (moves : Nat) :
    m.Kept input inv (m.run input moves (m.start sink)) := by
  have hstart : m.Kept input inv (m.start sink) :=
    kept_enter (Reader.live_start input) hkeep.initial sink
  generalize m.start sink = run at hstart
  induction moves generalizing run with
  | zero => exact hstart
  | succ n ih => exact ih _ (hstart.advance hkeep)

end Machine

/-- A sink that refuses nothing: it keeps no lines, or there is no limit to them. -/
def Sink.Unlimited : Sink → Prop
  | silent => True
  | page room _ => room = none

theorem Sink.Unlimited.write {C : Type} {sink : Sink} (h : sink.Unlimited) (line : C → String)
    (c : C) : ∃ sink', sink.write line c = some sink' ∧ sink'.Unlimited := by
  cases sink with
  | silent => exact ⟨_, rfl, trivial⟩
  | page room written =>
    cases h
    exact ⟨_, rfl, rfl⟩

def Run.sink : Run P V T → Sink
  | running s => s.sink
  | halted _ _ sink => sink

namespace Machine

variable {m : Machine P V T} {input : Input V T} {sink : Sink}

theorem unlimited_sink_enter (h : sink.Unlimited) (c : Configuration P V T) (r : Reader V T) :
    (m.enter c r sink).sink.Unlimited := by
  obtain ⟨sink', hwrite, hunlimited⟩ := h.write m.line c
  rw [enter, hwrite]
  exact hunlimited

theorem unlimited_sink_advance {run : Run P V T} (h : run.sink.Unlimited) :
    (m.advance input run).sink.Unlimited := by
  cases run with
  | halted outcome r sink => exact h
  | running s =>
    obtain ⟨c, r, sink⟩ := s
    have hsink : sink.Unlimited := h
    generalize hrun : m.advance input (.running ⟨c, r, sink⟩) = run'
    cases advanced_of_advance hrun with
    | accepted _ => exact hsink
    | rejected _ => exact hsink
    | entered _ => exact unlimited_sink_enter hsink _ _
    | faulty _ _ => exact hsink
    | looked _ _ => exact unlimited_sink_enter hsink _ _

theorem unlimited_sink_run {run : Run P V T} (h : run.sink.Unlimited) (moves : Nat) :
    (m.run input moves run).sink.Unlimited := by
  induction moves generalizing run with
  | zero => exact h
  | succ n ih => exact ih (unlimited_sink_advance h)

/-- A run is not ended by a sink that refuses nothing. -/
theorem not_refused (h : sink.Unlimited) {moves : Nat}
    {outcome : Except (ParseError V T) (List Nat)} {r : Reader V T} {sink' : Sink}
    (hrun : m.run input moves (m.start sink) = .halted outcome r sink') :
    outcome ≠ .error .traceRefused := by
  rintro rfl
  have hkeep : m.Invariant input fun _ _ => True :=
    ⟨trivial, fun _ _ _ _ _ => trivial, fun _ _ _ _ _ _ => trivial⟩
  have hkept := hkeep.kept sink moves
  have hsink : (m.run input moves (m.start sink)).sink.Unlimited :=
    unlimited_sink_run (unlimited_sink_enter h m.initial .start) moves
  rw [hrun] at hkept hsink
  have hunlimited : sink'.Unlimited := hsink
  cases hkept with
  | @refused c _ _ _ hwrite =>
    obtain ⟨_, hsome, _⟩ := hunlimited.write m.line c
    cases hwrite.symm.trans hsome

end Machine

end ContextFree
