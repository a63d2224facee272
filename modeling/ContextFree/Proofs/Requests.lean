import ContextFree.Proofs.Runs

namespace ContextFree

variable {P V T : Type}

namespace Reader

/-- A reader that has met a fault holds the terminals in front of it. -/
structure Failed (input : Input V T) (r : Reader V T) (f : InputFault V T) : Prop where
  taken : r.taken = r.buffer.size + 1
  buffer : ∀ i t, r.buffer[i]? = some t → input.answer i = some (.ok t)
  status : r.status = .failed f
  fault : input.answer r.buffer.size = some (.error f)

/-- The number of requests made so far: one for each symbol taken, and one that brought an end. -/
def requests (r : Reader V T) : Nat :=
  match r.status with
  | .ended => r.taken + 1
  | _ => r.taken

theorem requests_of_ended {r : Reader V T} (h : r.status = .ended) : r.requests = r.taken + 1 := by
  simp only [requests, h]

theorem requests_of_not_ended {r : Reader V T} (h : r.status ≠ .ended) : r.requests = r.taken := by
  unfold requests
  split
  · contradiction
  · rfl

variable {input : Input V T} {r : Reader V T}

theorem requests_pull (hr : r.status = .ready) : (r.pull input).requests = r.taken + 1 := by
  unfold pull
  rw [hr]
  cases input.source r.taken with
  | none => rfl
  | some s =>
    cases s with
    | nonterminal v => rfl
    | terminal t => by_cases ht : input.isTerminal t <;> simp [ht, requests]

theorem Live.pull (h : r.Live input) :
    (r.pull input).Live input ∨ ∃ f, (r.pull input).Failed input f := by
  by_cases hr : r.status = .ready
  · cases ha : input.answer r.buffer.size with
    | none =>
      have hend : input.answer r.buffer.size = (none : Option (InputFault V T)).map .error := ha
      exact .inl (h.pull_stop hr hend).2.1
    | some found =>
      cases found with
      | ok t => exact .inl (h.pull_ok hr ha).1
      | error f =>
        have hfault : input.answer r.buffer.size = (some f).map .error := ha
        obtain ⟨hbuffer, hstop⟩ := h.pull_stop hr hfault
        have hstatus : (r.pull input).status = .failed f := hstop
        have htaken : (r.pull input).taken = r.taken + 1 := by
          rw [← requests_of_not_ended (r := r.pull input) (by simp [hstatus]), requests_pull hr]
        refine .inr ⟨f, ?_, ?_, hstatus, ?_⟩
        · rw [htaken, hbuffer, h.taken]
        · rw [hbuffer]
          exact h.buffer
        · rw [hbuffer]
          exact ha
  · rw [pull_not_ready hr]
    exact .inl h

theorem Live.readTo (h : r.Live input) (cursor : Nat) :
    (r.readTo input cursor).Live input ∨ ∃ f, (r.readTo input cursor).Failed input f := by
  unfold Reader.readTo
  generalize cursor - r.buffer.size = n
  induction n generalizing r with
  | zero => exact .inl h
  | succ n ih =>
    rcases h.pull with hlive | ⟨f, hfailed⟩
    · exact ih hlive
    · rw [pulls, pulls_not_ready (by simp [hfailed.status])]
      exact .inr ⟨f, hfailed⟩

/-- The fault that a look brings is one of the input. -/
theorem Live.failed_readTo (h : r.Live input) {cursor : Nat} {f : InputFault V T}
    (hf : (r.readTo input cursor).status = .failed f) : (r.readTo input cursor).Failed input f := by
  rcases h.readTo cursor with hlive | ⟨f', hfailed⟩
  · exact False.elim (hlive.not_failed f hf)
  · cases hfailed.status.symm.trans hf
    exact hfailed

theorem Live.live_readTo (h : r.Live input) {cursor : Nat}
    (hfree : ∀ f, (r.readTo input cursor).status ≠ .failed f) :
    (r.readTo input cursor).Live input :=
  (h.readTo cursor).resolve_right fun hfailed => by
    obtain ⟨f, hf⟩ := hfailed
    exact hfree f hf.status

theorem requests_le_pull (input : Input V T) (r : Reader V T) :
    r.requests ≤ (r.pull input).requests := by
  by_cases hr : r.status = .ready
  · rw [requests_pull hr, requests_of_not_ended (by simp [hr])]
    exact Nat.le_succ _
  · exact Nat.le_of_eq (congrArg requests (pull_not_ready hr).symm)

theorem requests_le_pulls (n : Nat) : r.requests ≤ (r.pulls input n).requests := by
  induction n generalizing r with
  | zero => exact Nat.le_refl _
  | succ n ih => exact Nat.le_trans (requests_le_pull input r) ih

variable {x y : Source V T} {isTerminal : T → Bool}

/-- A request brings the same if the sources agree on it. -/
theorem pull_congr (h : ∀ i < (r.pull ⟨x, isTerminal⟩).requests, y i = x i) :
    r.pull ⟨y, isTerminal⟩ = r.pull ⟨x, isTerminal⟩ := by
  by_cases hr : r.status = .ready
  · have hlast : y r.taken = x r.taken := by
      apply h
      rw [requests_pull hr]
      exact Nat.lt_succ_self _
    simp only [pull, hlast]
  · rw [pull_not_ready hr, pull_not_ready hr]

theorem pulls_congr (n : Nat) (h : ∀ i < (r.pulls ⟨x, isTerminal⟩ n).requests, y i = x i) :
    r.pulls ⟨y, isTerminal⟩ n = r.pulls ⟨x, isTerminal⟩ n := by
  induction n generalizing r with
  | zero => rfl
  | succ n ih =>
    have hfirst : r.pull ⟨y, isTerminal⟩ = r.pull ⟨x, isTerminal⟩ :=
      pull_congr fun i hi => h i (Nat.lt_of_lt_of_le hi (requests_le_pulls n))
    rw [pulls, pulls, hfirst]
    exact ih h

end Reader

namespace Run

def reader : Run P V T → Reader V T
  | running s => s.reader
  | halted _ r _ => r

/-- The reader of a run holds what the input has brought; a fault has halted the run. -/
def Sound (input : Input V T) : Run P V T → Prop
  | running s => s.reader.Live input
  | halted outcome r _ =>
    (r.Live input ∧ ∀ f, outcome ≠ .error (.badInput f)) ∨
      ∃ f, r.Failed input f ∧ outcome = .error (.badInput f)

end Run

namespace Machine

theorem reader_enter (m : Machine P V T) (c : Configuration P V T) (r : Reader V T) (sink : Sink) :
    (m.enter c r sink).reader = r := by
  unfold enter
  cases sink.write m.line c <;> rfl

theorem sound_enter {m : Machine P V T} {input : Input V T} {r : Reader V T} (h : r.Live input)
    (c : Configuration P V T) (sink : Sink) : (m.enter c r sink).Sound input := by
  unfold enter
  cases sink.write m.line c with
  | none => exact .inl ⟨h, by simp⟩
  | some sink => exact h

variable {m : Machine P V T} {input : Input V T} {run : Run P V T}

theorem sound_advance (h : run.Sound input) : (m.advance input run).Sound input := by
  cases run with
  | halted outcome r sink => exact h
  | running s =>
    obtain ⟨c, r, sink⟩ := s
    have hlive : r.Live input := h
    generalize hrun : m.advance input (.running ⟨c, r, sink⟩) = run'
    cases advanced_of_advance hrun with
    | accepted _ => exact .inl ⟨hlive, by simp⟩
    | rejected _ => exact .inl ⟨hlive, by simp⟩
    | entered _ => exact sound_enter hlive _ sink
    | faulty _ hf => exact .inr ⟨_, hlive.failed_readTo hf, rfl⟩
    | looked _ hfree => exact sound_enter (hlive.live_readTo hfree) _ sink

theorem sound_run (h : run.Sound input) (n : Nat) : (m.run input n run).Sound input := by
  induction n generalizing run with
  | zero => exact h
  | succ n ih => exact ih (sound_advance h)

theorem sound (m : Machine P V T) (input : Input V T) (sink : Sink) (moves : Nat) :
    (m.run input moves (m.start sink)).Sound input :=
  sound_run (sound_enter (Reader.live_start input) m.initial sink) moves

theorem requests_le_advance (run : Run P V T) :
    run.reader.requests ≤ (m.advance input run).reader.requests := by
  cases run with
  | halted outcome r sink => exact Nat.le_refl _
  | running s =>
    obtain ⟨c, r, sink⟩ := s
    generalize hrun : m.advance input (.running ⟨c, r, sink⟩) = run'
    cases advanced_of_advance hrun with
    | accepted _ => exact Nat.le_refl _
    | rejected _ => exact Nat.le_refl _
    | entered _ =>
      rw [reader_enter]
      exact Nat.le_refl _
    | faulty _ _ => exact Reader.requests_le_pulls _
    | looked _ _ =>
      rw [reader_enter]
      exact Reader.requests_le_pulls _

theorem requests_le_run (run : Run P V T) (n : Nat) :
    run.reader.requests ≤ (m.run input n run).reader.requests := by
  induction n generalizing run with
  | zero => exact Nat.le_refl _
  | succ n ih => exact Nat.le_trans (requests_le_advance run) (ih _)

variable {x y : Source V T} {isTerminal : T → Bool}

/-- On inputs that agree on the requests made so far an automaton makes the same move. -/
theorem advance_congr
    (h : ∀ i < (m.advance ⟨x, isTerminal⟩ run).reader.requests, y i = x i) :
    m.advance ⟨y, isTerminal⟩ run = m.advance ⟨x, isTerminal⟩ run := by
  cases run with
  | halted outcome r sink => rfl
  | running s =>
    obtain ⟨c, r, sink⟩ := s
    cases hm : m.move c with
    | accept derivation => simp only [advance, hm]
    | reject => simp only [advance, hm]
    | enter c' => simp only [advance, hm]
    | look next =>
      have hread : r.readTo ⟨y, isTerminal⟩ c.cursor = r.readTo ⟨x, isTerminal⟩ c.cursor := by
        apply Reader.pulls_congr
        intro i hi
        apply h i
        simp only [advance, hm]
        split
        · exact hi
        · rw [reader_enter]
          exact hi
      simp only [advance, hm, hread]

/-- On inputs that agree on the requests made by the end of a run an automaton makes the same run.
-/
theorem run_congr (n : Nat)
    (h : ∀ i < (m.run ⟨x, isTerminal⟩ n run).reader.requests, y i = x i) :
    m.run ⟨y, isTerminal⟩ n run = m.run ⟨x, isTerminal⟩ n run := by
  induction n generalizing run with
  | zero => rfl
  | succ n ih =>
    have hfirst : m.advance ⟨y, isTerminal⟩ run = m.advance ⟨x, isTerminal⟩ run :=
      advance_congr fun i hi => h i (Nat.lt_of_lt_of_le hi (requests_le_run _ n))
    rw [Machine.run, Machine.run, hfirst]
    exact ih h

end Machine

end ContextFree
