import ContextFree.Proofs.BottomUp.Undo
import ContextFree.Proofs.TopDown.Undo

namespace ContextFree

variable {P V T : Type}

/-- The position of the bad symbol, counted from 1. -/
def InputFault.position : InputFault V T → Nat
  | notATerminal n _ => n
  | unknownTerminal n _ => n

theorem Input.position_of_answer {input : Input V T} {n : Nat} {f : InputFault V T}
    (h : input.answer n = some (.error f)) : f.position = n + 1 := by
  unfold answer at h
  split at h
  · cases h
  · cases h
    rfl
  · split at h
    · cases h
    · cases h
      rfl

namespace Reader

variable {input : Input V T} {r : Reader V T} {cursor : Nat}

theorem size_le_pull (input : Input V T) (r : Reader V T) :
    r.buffer.size ≤ (r.pull input).buffer.size ∧
      (r.pull input).buffer.size ≤ r.buffer.size + 1 := by
  unfold pull
  repeat' split
  all_goals simp

theorem taken_pull_le (input : Input V T) (r : Reader V T) :
    (r.pull input).taken ≤ r.taken + 1 := by
  unfold pull
  repeat' split
  all_goals simp

/-- A look that goes at most one symbol ahead makes at most one request. -/
theorem readTo_eq_or_pull (input : Input V T) (h : cursor ≤ r.buffer.size + 1) :
    r.readTo input cursor = r ∨
      cursor = r.buffer.size + 1 ∧ r.readTo input cursor = r.pull input := by
  unfold readTo
  rcases Nat.lt_or_eq_of_le h with hlt | rfl
  · rw [Nat.sub_eq_zero_of_le (Nat.le_of_lt_succ hlt)]
    exact .inl rfl
  · rw [Nat.add_sub_cancel_left]
    exact .inr ⟨rfl, rfl⟩

/-- A second look at the same place makes no request. -/
theorem readTo_readTo (input : Input V T) (r : Reader V T) (cursor : Nat) :
    (r.readTo input cursor).readTo input cursor = r.readTo input cursor := by
  by_cases hready : (r.readTo input cursor).status = .ready
  · have hsize := size_pulls _ hready
    have henough : cursor ≤ (r.readTo input cursor).buffer.size := by
      rw [readTo, hsize]
      omega
    rw [readTo, Nat.sub_eq_zero_of_le henough, pulls]
  · exact pulls_not_ready hready _

/-- The fault that a look brings is the symbol at the cursor, the last one taken. -/
theorem Live.position_of_failed (h : r.Live input) (hcursor : cursor ≤ r.buffer.size + 1)
    {f : InputFault V T} (hf : (r.readTo input cursor).status = .failed f) :
    f.position = cursor ∧ f.position = (r.readTo input cursor).taken := by
  have hfailed := h.failed_readTo hf
  have hposition := Input.position_of_answer hfailed.fault
  refine ⟨?_, hposition.trans hfailed.taken.symm⟩
  rcases readTo_eq_or_pull input hcursor with hsame | ⟨hnext, hpull⟩
  · rw [hsame] at hf
    exact False.elim (h.not_failed f hf)
  · have htaken := hfailed.taken
    rw [hpull] at hposition htaken
    have hone := taken_pull_le input r
    have hgrows := (size_le_pull input r).1
    rw [h.taken] at hone
    omega

end Reader

namespace Machine

/-- The cursor of an automaton starts in front of the input, and moves on by one place at most, when
it is over a terminal. -/
structure Gradual (m : Machine P V T) : Prop where
  initial : m.initial.cursor = 1
  enter : ∀ c c', m.move c = .enter c' → c'.cursor ≤ c.cursor
  ended : ∀ c next, m.move c = .look next → (next none).cursor ≤ c.cursor
  seen : ∀ c next t, m.move c = .look next → (next (some t)).cursor ≤ c.cursor + 1

/-- A run looks at most one symbol beyond those it has read, which are the first ones of its input,
and a second look at the same place reads nothing. So each move takes at most one symbol, what has
been read reaches as far as the farthest cursor so far and no farther, and a fault is reported at
the cursor, by the number of symbols taken. -/
structure LooksOneAhead (m : Machine P V T) (input : Input V T) (sink : Sink) : Prop where
  look : ∀ moves c r sink' next, m.run input moves (m.start sink) = .running ⟨c, r, sink'⟩ →
    m.move c = .look next → c.cursor ≤ r.buffer.size + 1 ∧
      (r.readTo input c.cursor).readTo input c.cursor = r.readTo input c.cursor
  taken : ∀ moves, (m.run input (moves + 1) (m.start sink)).reader.taken ≤
    (m.run input moves (m.start sink)).reader.taken + 1
  buffer : ∀ moves c r sink', m.run input moves (m.start sink) = .running ⟨c, r, sink'⟩ →
    r.taken = r.buffer.size ∧ ∀ i < r.taken, input.source i = r.buffer[i]?.map .terminal
  cursor : ∀ moves c r sink', m.run input moves (m.start sink) = .running ⟨c, r, sink'⟩ →
    1 ≤ c.cursor ∧ c.cursor - 1 ≤ r.buffer.size ∧
      ∃ earlier ≤ moves, ∃ d, m.Visits input sink earlier d ∧ r.buffer.size ≤ d.cursor
  fault : ∀ moves f r sink',
    m.run input moves (m.start sink) = .halted (.error (.badInput f)) r sink' →
    ∃ earlier < moves, ∃ c r' sink'',
      m.run input earlier (m.start sink) = .running ⟨c, r', sink''⟩ ∧
      m.run input (earlier + 1) (m.start sink) = .halted (.error (.badInput f)) r sink' ∧
      f.position = c.cursor ∧ f.position = r.taken

variable {m : Machine P V T} {input : Input V T} {sink sink' : Sink} {moves : Nat}
  {c : Configuration P V T} {r : Reader V T}

/-- A look that shows a terminal has read it. -/
theorem Gradual.invariant (h : m.Gradual) (input : Input V T) :
    m.Invariant input fun c r => c.cursor ≤ r.buffer.size + 1 where
  initial := Nat.le_of_eq h.initial
  enter c r c' hcursor hmove := Nat.le_trans (h.enter c c' hmove) hcursor
  look := by
    intro c r next hcursor hmove _
    have hgrows : r.buffer.size ≤ (r.readTo input c.cursor).buffer.size := by
      rcases Reader.readTo_eq_or_pull input hcursor with hsame | ⟨_, hpull⟩
      · rw [hsame]
      · rw [hpull]
        exact (Reader.size_le_pull input r).1
    cases hseen : (r.readTo input c.cursor).seen c.cursor with
    | none =>
      have hnext := h.ended c next hmove
      omega
    | some t =>
      have hnext := h.seen c next t hmove
      have hread := (Array.getElem?_eq_some_iff.mp hseen).1
      omega

theorem Gradual.cursor_le (h : m.Gradual)
    (hrun : m.run input moves (m.start sink) = .running ⟨c, r, sink'⟩) :
    c.cursor ≤ r.buffer.size + 1 := by
  have hkept := (h.invariant input).kept sink moves
  rw [hrun] at hkept
  cases hkept with
  | running _ hcursor => exact hcursor

theorem live_of_running (hrun : m.run input moves (m.start sink) = .running ⟨c, r, sink'⟩) :
    r.Live input := by
  have hsound := sound m input sink moves
  rw [hrun] at hsound
  exact hsound

/-- A move reads nothing or looks at the cursor. -/
theorem reader_advance (m : Machine P V T) (input : Input V T) (c : Configuration P V T)
    (r : Reader V T) (sink : Sink) :
    (m.advance input (.running ⟨c, r, sink⟩)).reader = r ∨
      (m.advance input (.running ⟨c, r, sink⟩)).reader = r.readTo input c.cursor := by
  generalize hrun : m.advance input (.running ⟨c, r, sink⟩) = run
  cases advanced_of_advance hrun with
  | accepted _ => exact .inl rfl
  | rejected _ => exact .inl rfl
  | entered _ => exact .inl (reader_enter ..)
  | faulty _ _ => exact .inr rfl
  | looked _ _ => exact .inr (reader_enter ..)

/-- A move makes at most one request, and that for the symbol at the cursor. -/
theorem Gradual.reader_succ (h : m.Gradual)
    (hrun : m.run input moves (m.start sink) = .running ⟨c, r, sink'⟩) :
    (m.run input (moves + 1) (m.start sink)).reader = r ∨
      c.cursor = r.buffer.size + 1 ∧
        (m.run input (moves + 1) (m.start sink)).reader = r.pull input := by
  rw [run_succ, hrun]
  rcases reader_advance m input c r sink' with hsame | hlook
  · exact .inl hsame
  · rw [hlook]
    exact Reader.readTo_eq_or_pull input (h.cursor_le hrun)

theorem Gradual.taken_succ (h : m.Gradual) (input : Input V T) (sink : Sink) (moves : Nat) :
    (m.run input (moves + 1) (m.start sink)).reader.taken ≤
      (m.run input moves (m.start sink)).reader.taken + 1 := by
  cases hrun : m.run input moves (m.start sink) with
  | halted outcome r sink' =>
    rw [run_succ, hrun, advance]
    exact Nat.le_succ _
  | running s =>
    obtain ⟨c, r, sink'⟩ := s
    rcases h.reader_succ hrun with hsame | ⟨_, hpull⟩
    · rw [hsame]
      exact Nat.le_succ _
    · rw [hpull]
      exact Reader.taken_pull_le input r

/-- No more has been read than a cursor has reached. -/
theorem Gradual.size_le_farthest (h : m.Gradual)
    (hrun : m.run input moves (m.start sink) = .running ⟨c, r, sink'⟩) :
    ∃ earlier ≤ moves, ∃ d, m.Visits input sink earlier d ∧ r.buffer.size ≤ d.cursor := by
  induction moves generalizing c r sink' with
  | zero =>
    have hreader : (m.start sink).reader = .start := reader_enter ..
    have hstart : m.start sink = .running ⟨c, r, sink'⟩ := hrun
    rw [hstart] at hreader
    cases hreader
    exact ⟨0, Nat.le_refl 0, c, ⟨_, _, hrun⟩, Nat.zero_le _⟩
  | succ moves ih =>
    obtain ⟨d, ⟨r', sink'', hbefore⟩, _⟩ := exists_visits_of_succ ⟨r, sink', hrun⟩
    have hreader := h.reader_succ hbefore
    rw [hrun] at hreader
    rcases hreader with hsame | ⟨hcursor, hpull⟩
    · obtain ⟨earlier, hle, e, hvisits, hsize⟩ := ih hbefore
      rw [← (show r = r' from hsame)] at hsize
      exact ⟨earlier, Nat.le_succ_of_le hle, e, hvisits, hsize⟩
    · refine ⟨moves, Nat.le_succ moves, d, ⟨_, _, hbefore⟩, ?_⟩
      rw [hcursor, (show r = r'.pull input from hpull)]
      exact (Reader.size_le_pull input r').2

theorem enter_ne_faulty (m : Machine P V T) (c : Configuration P V T) (r r' : Reader V T)
    (sink sink' : Sink) (f : InputFault V T) :
    m.enter c r sink ≠ .halted (.error (.badInput f)) r' sink' := by
  unfold enter
  split <;> exact fun h => by cases h

/-- A run that has met a fault met it in a move. -/
theorem exists_faulty {f : InputFault V T}
    (hrun : m.run input moves (m.start sink) = .halted (.error (.badInput f)) r sink') :
    ∃ earlier < moves, ∃ c r' sink'',
      m.run input earlier (m.start sink) = .running ⟨c, r', sink''⟩ ∧
      m.run input (earlier + 1) (m.start sink) = .halted (.error (.badInput f)) r sink' := by
  induction moves with
  | zero => exact False.elim (enter_ne_faulty m _ _ _ _ _ f hrun)
  | succ moves ih =>
    cases hbefore : m.run input moves (m.start sink) with
    | halted outcome r' sink'' =>
      have hlast := hrun
      rw [run_succ, hbefore, advance] at hlast
      rw [hlast] at hbefore
      obtain ⟨earlier, hlt, hfaulty⟩ := ih hbefore
      exact ⟨earlier, Nat.lt_succ_of_lt hlt, hfaulty⟩
    | running s => exact ⟨moves, Nat.lt_succ_self moves, _, _, _, hbefore, hrun⟩

theorem Gradual.position_of_faulty (h : m.Gradual) {r' : Reader V T} {sink'' : Sink}
    {f : InputFault V T} (hrun : m.run input moves (m.start sink) = .running ⟨c, r, sink'⟩)
    (hfaulty : m.run input (moves + 1) (m.start sink) = .halted (.error (.badInput f)) r' sink'') :
    f.position = c.cursor ∧ f.position = r'.taken := by
  rw [run_succ, hrun] at hfaulty
  have hadvanced := advanced_of_advance hfaulty
  generalize hout : Run.halted (.error (.badInput f)) r' sink'' = out at hadvanced
  cases hadvanced with
  | accepted _ => cases hout
  | rejected _ => cases hout
  | entered _ => exact False.elim (enter_ne_faulty m _ _ _ _ _ f hout.symm)
  | faulty _ hf =>
    cases hout
    exact (live_of_running hrun).position_of_failed (h.cursor_le hrun) hf
  | looked _ _ => exact False.elim (enter_ne_faulty m _ _ _ _ _ f hout.symm)

theorem Gradual.looksOneAhead (h : m.Gradual)
    (hpositive : ∀ moves c, m.Visits input sink moves c → 1 ≤ c.cursor) :
    m.LooksOneAhead input sink where
  look _ _ _ _ _ hrun _ := ⟨h.cursor_le hrun, Reader.readTo_readTo input _ _⟩
  taken := h.taken_succ input sink
  buffer := by
    intro moves c r sink' hrun
    have hlive := live_of_running hrun
    refine ⟨hlive.taken, fun i hi => ?_⟩
    rw [hlive.taken] at hi
    have hread := Array.getElem?_eq_getElem hi
    rw [Input.source_of_answer (hlive.buffer i _ hread), hread, Option.map_some]
  cursor := by
    intro moves c r sink' hrun
    have hle := h.cursor_le hrun
    exact ⟨hpositive moves c ⟨r, sink', hrun⟩, by omega, h.size_le_farthest hrun⟩
  fault := by
    intro moves f r sink' hrun
    obtain ⟨earlier, hlt, c, r', sink'', hbefore, hfaulty⟩ := exists_faulty hrun
    obtain ⟨hcursor, htaken⟩ := h.position_of_faulty hbefore hfaulty
    exact ⟨earlier, hlt, c, r', sink'', hbefore, hfaulty, hcursor, htaken⟩

end Machine

variable [DecidableEq V] [DecidableEq T] [Name V] [Name T]

theorem TopDown.gradual (g : Grammar V T) (start : V) : (machine g start).Gradual where
  initial := rfl
  enter := by
    intro c c' hmove
    cases turn_of_move hmove with
    | unmatch _ _ => exact Nat.sub_le ..
    | expand _ _ _ | giveUp _ | replace _ _ _ | drop _ _ _ => exact Nat.le_refl _
  ended := by
    intro c next hmove
    cases turn_of_move hmove with
    | finish _ => exact Nat.le_refl _
    | matchFront _ _ => exact Nat.le_refl _
  seen := by
    intro c next t hmove
    cases turn_of_move hmove with
    | finish _ => exact Nat.le_succ _
    | matchFront _ _ =>
      unfold matchFront
      split
      · exact Nat.le_refl _
      · exact Nat.le_succ _

theorem BottomUp.gradual (g : Grammar V T) (start : V) : (machine g start).Gradual where
  initial := rfl
  enter := by
    intro c c' hmove
    cases choice_of_move hmove with
    | reduce _ _ _ => exact Nat.le_refl _
    | unshift _ _ => exact Nat.sub_le ..
  ended := by
    intro c next hmove
    cases choice_of_move hmove with
    | shiftOrUndo _ _ => exact Nat.le_refl _
    | close hend _ =>
      rw [hend]
  seen := by
    intro c next t hmove
    cases choice_of_move hmove with
    | shiftOrUndo _ _ => exact Nat.le_refl _
    | close _ hgo =>
      rcases hgo t with hnext | ⟨p, hnext⟩
      · rw [hnext]
        exact Nat.le_refl _
      · rw [hnext]
        exact Nat.le_succ _

/-- On any grammar and any input, and whether it halts or not, no run of either automaton looks more
than one symbol ahead of those it has read. -/
theorem Strategy.runs_look_one_ahead (g : Grammar V T) (start : V) (input : Input V T)
    (sink : Sink) :
    (TopDown.machine g start).LooksOneAhead input sink ∧
      (BottomUp.machine g start).LooksOneAhead input sink := by
  constructor
  · refine (TopDown.gradual g start).looksOneAhead fun moves c hvisits => ?_
    obtain ⟨_, haccounted⟩ := (TopDown.invariant_accounted g start input).visits hvisits
    rw [haccounted.cursor]
    exact Nat.le_add_left ..
  · refine (BottomUp.gradual g start).looksOneAhead fun moves c hvisits => ?_
    obtain ⟨_, hpatient⟩ := (BottomUp.invariant_patient g start input).visits hvisits
    rw [hpatient.cursor]
    exact Nat.le_add_left ..

end ContextFree
