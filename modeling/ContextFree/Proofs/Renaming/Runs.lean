import ContextFree.Parse
import ContextFree.Proofs.Renaming.Checks

namespace ContextFree

variable {P P' V V' T T' : Type}

/-- The same symbols under other names. -/
def Source.map (f : V → V') (e : T → T') (x : Source V T) : Source V' T' :=
  fun n => (x n).map (Symbol.map f e)

def InputFault.map (f : V → V') (e : T → T') : InputFault V T → InputFault V' T'
  | notATerminal position v => notATerminal position (f v)
  | unknownTerminal position t => unknownTerminal position (e t)

def ParseError.map (f : V → V') (e : T → T') : ParseError V T → ParseError V' T'
  | badInput fault => badInput (fault.map f e)
  | badGrammar defect => badGrammar (defect.map f)
  | noDerivation => noDerivation
  | traceRefused => traceRefused

def ReaderStatus.map (f : V → V') (e : T → T') : ReaderStatus V T → ReaderStatus V' T'
  | ready => ready
  | ended => ended
  | failed fault => failed (fault.map f e)

def Configuration.map (point : P → P') (f : V → V') (e : T → T') (c : Configuration P V T) :
    Configuration P' V' T' :=
  ⟨c.mode, c.cursor, c.history.map point, c.symbols.map (Symbol.map f e)⟩

namespace Reader

def map (f : V → V') (e : T → T') (r : Reader V T) : Reader V' T' :=
  ⟨r.buffer.map e, r.taken, r.status.map f e⟩

variable {f : V → V'} {e : T → T'} {x : Source V T} {isTerminal : T → Bool}
  {isTerminal' : T' → Bool}

theorem pull_map (halphabet : ∀ t, isTerminal' (e t) = isTerminal t) (r : Reader V T) :
    (r.map f e).pull ⟨x.map f e, isTerminal'⟩ = (r.pull ⟨x, isTerminal⟩).map f e := by
  obtain ⟨buffer, taken, status⟩ := r
  cases status with
  | ready =>
    simp only [pull, map, ReaderStatus.map, Source.map]
    cases x taken with
    | none => rfl
    | some s =>
      cases s with
      | nonterminal v => simp [Symbol.map, InputFault.map]
      | terminal t =>
        simp only [Option.map_some, Symbol.map, halphabet]
        split <;> simp [InputFault.map]
  | ended => rfl
  | failed fault => rfl

theorem pulls_map (halphabet : ∀ t, isTerminal' (e t) = isTerminal t) (n : Nat)
    (r : Reader V T) :
    (r.map f e).pulls ⟨x.map f e, isTerminal'⟩ n = (r.pulls ⟨x, isTerminal⟩ n).map f e := by
  induction n generalizing r with
  | zero => rfl
  | succ n ih => rw [pulls, pulls, pull_map halphabet, ih]

theorem readTo_map (halphabet : ∀ t, isTerminal' (e t) = isTerminal t) (cursor : Nat)
    (r : Reader V T) :
    (r.map f e).readTo ⟨x.map f e, isTerminal'⟩ cursor =
      (r.readTo ⟨x, isTerminal⟩ cursor).map f e := by
  rw [readTo, readTo, ← pulls_map halphabet, map, Array.size_map]

theorem start_map : (start : Reader V T).map f e = start := by
  simp [start, map, ReaderStatus.map]

theorem seen_map (r : Reader V T) (cursor : Nat) :
    (r.map f e).seen cursor = (r.seen cursor).map e := by
  simp [seen, map]

end Reader

/-- Two sinks with the same room left and the same number of lines. -/
inductive Sink.Level : Sink → Sink → Prop where
  | silent : Level .silent .silent
  | page {written written' : List String} (room : Option Nat)
      (h : written'.length = written.length) : Level (.page room written) (.page room written')

namespace Sink

theorem Level.refl (sink : Sink) : sink.Level sink := by
  cases sink with
  | silent => exact .silent
  | page room written => exact .page room rfl

variable {sink sink' : Sink}

theorem Level.length_lines (h : sink.Level sink') : sink'.lines.length = sink.lines.length := by
  cases h with
  | silent => rfl
  | page room h => simpa [lines] using h

/-- Whether a line is accepted does not depend on the line. -/
theorem Level.write {C C' : Type} (h : sink.Level sink') (line : C → String) (c : C)
    (line' : C' → String) (c' : C') :
    Option.Rel Level (sink.write line c) (sink'.write line' c') := by
  cases h with
  | silent => exact .some .silent
  | page room h =>
    match room with
    | some 0 => exact .none
    | some (n + 1) => exact .some (.page _ (by simp [h]))
    | none => exact .some (.page _ (by simp [h]))

end Sink

/-- A move of the same kind, which leads to the same configuration under other names. -/
inductive Move.Alike (point : P → P') (f : V → V') (e : T → T') :
    Move P V T → Move P' V' T' → Prop where
  | accept (derivation : List Nat) : Alike point f e (.accept derivation) (.accept derivation)
  | reject : Alike point f e .reject .reject
  | enter (c : Configuration P V T) : Alike point f e (.enter c) (.enter (c.map point f e))
  | look {next : Option T → Configuration P V T} {next' : Option T' → Configuration P' V' T'}
      (h : ∀ seen, next' (seen.map e) = (next seen).map point f e) :
      Alike point f e (.look next) (.look next')

theorem Move.Alike.of_enter {point : P → P'} {f : V → V'} {e : T → T'}
    {c : Configuration P V T} {c' : Configuration P' V' T'} (h : c' = c.map point f e) :
    Move.Alike point f e (.enter c) (.enter c') :=
  h ▸ .enter c

/-- The same run under two names: the lines of the two traces may differ, but not their number. -/
inductive Run.Alike (point : P → P') (f : V → V') (e : T → T') :
    Run P V T → Run P' V' T' → Prop where
  | running (c : Configuration P V T) (r : Reader V T) {sink sink' : Sink}
      (h : sink.Level sink') :
      Alike point f e (.running ⟨c, r, sink⟩)
        (.running ⟨c.map point f e, r.map f e, sink'⟩)
  | halted (outcome : Except (ParseError V T) (List Nat)) (r : Reader V T) {sink sink' : Sink}
      (h : sink.Level sink') :
      Alike point f e (.halted outcome r sink)
        (.halted (outcome.mapError (ParseError.map f e)) (r.map f e) sink')

/-- An automaton under other names. -/
structure Machine.Alike (point : P → P') (f : V → V') (e : T → T') (m : Machine P V T)
    (m' : Machine P' V' T') : Prop where
  initial : m'.initial = m.initial.map point f e
  move : ∀ c, (m.move c).Alike point f e (m'.move (c.map point f e))

namespace Machine

variable {point : P → P'} {f : V → V'} {e : T → T'} {m : Machine P V T} {m' : Machine P' V' T'}

theorem enter_alike (m : Machine P V T) (m' : Machine P' V' T') (c : Configuration P V T)
    (r : Reader V T) {sink sink' : Sink} (h : sink.Level sink') :
    (m.enter c r sink).Alike point f e (m'.enter (c.map point f e) (r.map f e) sink') := by
  have hwrite := h.write m.line c m'.line (c.map point f e)
  unfold enter
  generalize sink.write m.line c = written at hwrite
  generalize sink'.write m'.line (c.map point f e) = written' at hwrite
  cases hwrite with
  | none => exact .halted (.error .traceRefused) r h
  | some h => exact .running c r h

section Input

variable {x : Source V T} {isTerminal : T → Bool} {isTerminal' : T' → Bool}

theorem Alike.advance (hm : m.Alike point f e m')
    (halphabet : ∀ t, isTerminal' (e t) = isTerminal t) {run : Run P V T} {run' : Run P' V' T'}
    (h : run.Alike point f e run') :
    (m.advance ⟨x, isTerminal⟩ run).Alike point f e
      (m'.advance ⟨x.map f e, isTerminal'⟩ run') := by
  cases h with
  | halted outcome r h => exact .halted outcome r h
  | running c r h =>
    have hmove := hm.move c
    simp only [Machine.advance]
    generalize m.move c = move at hmove
    generalize m'.move (c.map point f e) = move' at hmove
    cases hmove with
    | accept derivation => exact .halted (.ok derivation) r h
    | reject => exact .halted (.error .noDerivation) r h
    | enter c' => exact enter_alike m m' c' r h
    | look hnext =>
      -- The looks are alike on renamed terminals only, but a renamed reader shows no others.
      rename_i next next'
      have hread := Reader.readTo_map (f := f) (x := x) halphabet c.cursor r
      simp only [Configuration.map] at hread ⊢
      rw [hread, Reader.seen_map, hnext]
      generalize r.readTo ⟨x, isTerminal⟩ c.cursor = r'
      obtain ⟨buffer, taken, status⟩ := r'
      cases status with
      | failed fault => exact .halted (.error (.badInput fault)) ⟨buffer, taken, .failed fault⟩ h
      | ready => exact enter_alike m m' _ ⟨buffer, taken, .ready⟩ h
      | ended => exact enter_alike m m' _ ⟨buffer, taken, .ended⟩ h

theorem Alike.run (hm : m.Alike point f e m')
    (halphabet : ∀ t, isTerminal' (e t) = isTerminal t) (n : Nat) {run : Run P V T}
    {run' : Run P' V' T'} (h : run.Alike point f e run') :
    (m.run ⟨x, isTerminal⟩ n run).Alike point f e
      (m'.run ⟨x.map f e, isTerminal'⟩ n run') := by
  induction n generalizing run run' with
  | zero => exact h
  | succ n ih => exact ih (hm.advance halphabet h)

end Input

end Machine

/-- The same report under other names, with a trace of the same length. -/
structure Report.Alike (f : V → V') (e : T → T') (report : Report V T) (report' : Report V' T') :
    Prop where
  outcome : report'.outcome = report.outcome.mapError (ParseError.map f e)
  taken : report'.taken = report.taken
  trace : report'.trace.length = report.trace.length

theorem Run.Alike.report {point : P → P'} {f : V → V'} {e : T → T'} {run : Run P V T}
    {run' : Run P' V' T'} (h : run.Alike point f e run') :
    Option.Rel (Report.Alike f e) run.report? run'.report? := by
  cases h with
  | running c r h => exact .none
  | halted outcome r h => exact .some ⟨rfl, rfl, h.length_lines⟩

theorem Machine.Alike.report {point : P → P'} {f : V → V'} {e : T → T'} {m : Machine P V T}
    {m' : Machine P' V' T'} (hm : m.Alike point f e m') {isTerminal : T → Bool}
    {isTerminal' : T' → Bool} (halphabet : ∀ t, isTerminal' (e t) = isTerminal t)
    (x : Source V T) (sink : Sink) (moves : Nat) :
    Option.Rel (Report.Alike f e) (m.report? ⟨x, isTerminal⟩ sink moves)
      (m'.report? ⟨x.map f e, isTerminal'⟩ sink moves) := by
  have hstart : (m.start sink).Alike point f e (m'.start sink) := by
    unfold start
    rw [hm.initial, ← Reader.start_map (f := f) (e := e)]
    exact enter_alike m m' m.initial .start (.refl sink)
  exact (hm.run halphabet moves hstart).report

end ContextFree
