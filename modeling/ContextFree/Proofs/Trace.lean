import ContextFree.Proofs.BottomUp.Exact
import ContextFree.Proofs.Invariant
import ContextFree.Proofs.Laziness

namespace ContextFree

variable {P V T : Type}

def Run.mapSink (f : Sink → Sink) : Run P V T → Run P V T
  | running s => running { s with sink := f s.sink }
  | halted outcome reader sink => halted outcome reader (f sink)

/-- The same lines on a page with room for a number of lines in all. -/
def Sink.limit (room : Nat) : Sink → Sink
  | silent => silent
  | page _ written => page (some (room - written.length)) written

theorem Sink.exists_write {C : Type} (line : C → String) (c : C) (written : List String) :
    ∃ l, (page none written).write line c = some (page none (l :: written)) ∧
      ∀ room, (page (some (room + 1)) written).write line c =
        some (page (some room) (l :: written)) :=
  ⟨_, rfl, fun _ => rfl⟩

namespace Machine

variable {m : Machine P V T} {input : Input V T}

/-- What a move does to a run whose trace has no limit. -/
inductive Grows (m : Machine P V T) (input : Input V T) : Run P V T → Run P V T → Prop
  | rests {outcome : Except (ParseError V T) (List Nat)} {r : Reader V T} {sink : Sink} :
      Grows m input (.halted outcome r sink) (.halted outcome r sink)
  | halts {c : Configuration P V T} {r r' : Reader V T} {written : List String}
      {outcome : Except (ParseError V T) (List Nat)}
      (hmove : ∀ sink, m.advance input (.running ⟨c, r, sink⟩) = .halted outcome r' sink) :
      Grows m input (.running ⟨c, r, .page none written⟩) (.halted outcome r' (.page none written))
  | writes {c c' : Configuration P V T} {r r' : Reader V T} {written : List String} {l : String}
      (hmove : ∀ sink, m.advance input (.running ⟨c, r, sink⟩) = m.enter c' r' sink)
      (hwrite : (Sink.page none written).write m.line c' = some (.page none (l :: written))) :
      Grows m input (.running ⟨c, r, .page none written⟩)
        (.running ⟨c', r', .page none (l :: written)⟩)

theorem grows_advance {run : Run P V T} {written : List String}
    (h : run.sink = .page none written) : m.Grows input run (m.advance input run) := by
  cases run with
  | halted outcome r sink => exact .rests
  | running s =>
    obtain ⟨c, r, sink⟩ := s
    obtain rfl : sink = .page none written := h
    rcases m.advance_forms input c r with ⟨outcome, r', hhalt⟩ | ⟨c', r', henter⟩
    · rw [hhalt]
      exact .halts hhalt
    · obtain ⟨l, hwrite, _⟩ := Sink.exists_write m.line c' written
      rw [henter, enter, hwrite]
      exact .writes henter hwrite

theorem Grows.exists_written {run run' : Run P V T} {written : List String}
    (h : m.Grows input run run') (hsink : run.sink = .page none written) :
    ∃ more, run'.sink = .page none (more ++ written) := by
  cases h with
  | rests => exact ⟨[], hsink⟩
  | halts _ => exact ⟨[], hsink⟩
  | @writes c c' r r' written' l _ _ =>
    cases hsink
    exact ⟨[l], rfl⟩

/-- The run whose trace has no limit. -/
def full (m : Machine P V T) (input : Input V T) (moves : Nat) : Run P V T :=
  m.run input moves (m.start (.new none))

theorem full_zero (m : Machine P V T) (input : Input V T) :
    ∃ l, (Sink.page none []).write m.line m.initial = some (.page none [l]) ∧
      m.full input 0 = .running ⟨m.initial, .start, .page none [l]⟩ := by
  obtain ⟨l, hwrite, _⟩ := Sink.exists_write m.line m.initial []
  refine ⟨l, hwrite, ?_⟩
  rw [full, run, start, enter, Sink.new, hwrite]

theorem full_succ (m : Machine P V T) (input : Input V T) (moves : Nat) :
    m.full input (moves + 1) = m.advance input (m.full input moves) :=
  run_succ moves _

theorem exists_sink_full (m : Machine P V T) (input : Input V T) (moves : Nat) :
    ∃ written, (m.full input moves).sink = .page none written := by
  induction moves with
  | zero =>
    obtain ⟨l, _, hfull⟩ := m.full_zero input
    exact ⟨[l], by rw [hfull]; rfl⟩
  | succ k ih =>
    obtain ⟨written, hwritten⟩ := ih
    have hgrows : m.Grows input _ _ := grows_advance hwritten
    rw [full_succ]
    obtain ⟨more, hmore⟩ := hgrows.exists_written hwritten
    exact ⟨_, hmore⟩

theorem grows_full (m : Machine P V T) (input : Input V T) (moves : Nat) :
    m.Grows input (m.full input moves) (m.full input (moves + 1)) := by
  obtain ⟨written, hwritten⟩ := m.exists_sink_full input moves
  rw [full_succ]
  exact grows_advance hwritten

/-- While a run goes on, every move has written a line, and one was written before the first. The
move that halts it writes none. -/
inductive Traced (moves : Nat) : Run P V T → Prop
  | running (c : Configuration P V T) (r : Reader V T) {written : List String}
      (hlength : written.length = moves + 1) :
      Traced moves (.running ⟨c, r, .page none written⟩)
  | halted (outcome : Except (ParseError V T) (List Nat)) (r : Reader V T) {written : List String}
      (hlength : written.length ≤ moves) : Traced moves (.halted outcome r (.page none written))

theorem traced_full (m : Machine P V T) (input : Input V T) (moves : Nat) :
    Traced moves (m.full input moves) := by
  induction moves with
  | zero =>
    obtain ⟨l, _, hfull⟩ := m.full_zero input
    rw [hfull]
    exact .running _ _ rfl
  | succ k ih =>
    have hgrows := m.grows_full input k
    generalize m.full input k = run, m.full input (k + 1) = run' at ih hgrows
    cases hgrows with
    | rests =>
      cases ih with
      | halted _ _ hlength => exact .halted _ _ (Nat.le_succ_of_le hlength)
    | halts _ =>
      cases ih with
      | running _ _ hlength => exact .halted _ _ (Nat.le_of_eq hlength)
    | writes _ _ =>
      cases ih with
      | running _ _ hlength => exact .running _ _ (congrArg (· + 1) hlength)

/-- Lines are only added to a trace. -/
theorem lines_prefix (m : Machine P V T) (input : Input V T) (moves more : Nat) :
    (m.full input moves).sink.lines <+: (m.full input (moves + more)).sink.lines := by
  induction more with
  | zero => exact List.prefix_rfl
  | succ k ih =>
    obtain ⟨written, hwritten⟩ := m.exists_sink_full input (moves + k)
    obtain ⟨added, hadded⟩ := (m.grows_full input (moves + k)).exists_written hwritten
    refine ih.trans ?_
    rw [← Nat.add_assoc, hwritten, hadded, Sink.lines, Sink.lines, List.reverse_append]
    exact List.prefix_append ..

/-- A run with another sink goes the same way as long as this takes the same lines. -/
theorem run_mapSink {f : Sink → Sink} {bound : Nat}
    (hwrite : ∀ written l c, written.length < bound →
      (Sink.page none written).write m.line c = some (.page none (l :: written)) →
      (f (.page none written)).write m.line c = some (f (.page none (l :: written))))
    (moves : Nat) (hbound : (m.full input moves).sink.lines.length ≤ bound) :
    m.run input moves (m.start (f (.new none))) = (m.full input moves).mapSink f := by
  induction moves with
  | zero =>
    obtain ⟨l, hfirst, hfull⟩ := m.full_zero input
    rw [hfull] at hbound ⊢
    rw [run, start, enter, Sink.new, hwrite [] l m.initial hbound hfirst]
    rfl
  | succ k ih =>
    have hgrows := m.grows_full input k
    rw [run_succ]
    generalize m.full input k = run, m.full input (k + 1) = run' at ih hgrows hbound
    cases hgrows with
    | rests =>
      rw [ih hbound]
      rfl
    | halts hmove =>
      rw [ih hbound]
      exact hmove _
    | @writes c c' r r' written l hmove hline =>
      have hroom : written.length + 1 ≤ bound := by
        simpa [Run.sink, Sink.lines] using hbound
      rw [ih (by simpa [Run.sink, Sink.lines] using Nat.le_of_lt hroom)]
      refine (hmove _).trans ?_
      rw [enter, hwrite written l c' hroom hline]
      rfl

/-- A run without a trace goes the same way as the full run. -/
theorem run_silent (moves : Nat) :
    m.run input moves (m.start .silent) = (m.full input moves).mapSink fun _ => .silent :=
  run_mapSink (f := fun _ => .silent) (fun _ _ _ _ _ => rfl) moves (Nat.le_refl _)

/-- A run on a page goes the same way as the full run until it needs a line more than there are. -/
theorem run_limit {room moves : Nat} (h : (m.full input moves).sink.lines.length ≤ room) :
    m.run input moves (m.start (.new (some room))) =
      (m.full input moves).mapSink (Sink.limit room) := by
  refine run_mapSink (f := Sink.limit room) (fun written l c hroom hline => ?_) moves h
  obtain ⟨l', hline', hlimit⟩ := Sink.exists_write m.line c written
  cases hline.symm.trans hline'
  obtain ⟨left, hleft⟩ : ∃ left, room - written.length = left + 1 :=
    Nat.exists_eq_add_one.mpr (Nat.sub_pos_of_lt hroom)
  have hleft' : room - (l :: written).length = left := by
    rw [List.length_cons]
    omega
  rw [Sink.limit, Sink.limit, hleft, hleft', hlimit]

theorem length_lines_le (m : Machine P V T) (input : Input V T) (moves : Nat) :
    (m.full input moves).sink.lines.length ≤ moves + 1 := by
  have htraced := m.traced_full input moves
  generalize m.full input moves = run at htraced
  cases htraced with
  | running c r hlength => simp [Run.sink, Sink.lines, hlength]
  | halted outcome r hlength => simpa [Run.sink, Sink.lines] using Nat.le_succ_of_le hlength

/-- As every line comes with a move of its own, the full run that writes enough lines is still going
on when it writes one of them. -/
theorem running_full {room moves : Nat} (h : room < (m.full input moves).sink.lines.length) :
    room ≤ moves ∧ ∃ c r written, m.full input room = .running ⟨c, r, .page none written⟩ ∧
      written.length = room + 1 := by
  have hmoves := m.length_lines_le input moves
  have hroom : room ≤ moves := by omega
  refine ⟨hroom, ?_⟩
  have htraced := m.traced_full input room
  generalize hrun : m.full input room = run at htraced
  cases htraced with
  | running c r hlength => exact ⟨c, r, _, rfl, hlength⟩
  | @halted outcome r written hlength =>
    obtain ⟨more, rfl⟩ := Nat.exists_eq_add_of_le hroom
    have hrest : m.full input (room + more) = .halted outcome r (.page none written) := by
      rw [full, run_add, ← full, hrun, run_halted]
    rw [hrest, Run.sink, Sink.lines, List.length_reverse] at h
    omega

/-- A page that lacks room for a line of the full run ends the run when this line is due. -/
theorem run_refused {room moves : Nat} (h : room < (m.full input moves).sink.lines.length) :
    m.run input room (m.start (.new (some room))) =
      .halted (.error .traceRefused) (m.full input room).reader
        (.page (some 0) ((m.full input moves).sink.lines.take room).reverse) := by
  cases room with
  | zero =>
    obtain ⟨l, _, hfull⟩ := m.full_zero input
    rw [hfull]
    rfl
  | succ n =>
    obtain ⟨hle, c', r', written', hrun', hlength⟩ := running_full h
    obtain ⟨more, rfl⟩ := Nat.exists_eq_add_of_le hle
    have hprefix := m.lines_prefix input (n + 1) more
    have hgrows := m.grows_full input n
    rw [hrun'] at hgrows hprefix ⊢
    generalize hrun : m.full input n = run at hgrows
    cases hgrows with
    | @writes c _ r _ written l hmove hwrite =>
      rw [List.length_cons] at hlength
      have hlimit : m.run input n (m.start (.new (some (n + 1)))) =
          .running ⟨c, r, .page (some 0) written⟩ := by
        rw [run_limit, hrun, Run.mapSink, Sink.limit, ← Nat.succ_inj.mp hlength, Nat.sub_self]
        rw [hrun, Run.sink, Sink.lines, List.length_reverse]
        exact Nat.le_of_eq (Nat.succ_inj.mp hlength)
      obtain ⟨behind, hbehind⟩ := hprefix
      have htake : ((l :: written).reverse ++ behind).take (n + 1) = written.reverse := by
        rw [List.reverse_cons, List.append_assoc]
        exact List.take_left' (by simpa using hlength)
      rw [Run.sink, Sink.lines] at hbehind
      rw [← hbehind, htake, List.reverse_reverse, run_succ, hlimit, hmove]
      rfl

end Machine

/-- A report without its trace. -/
def Report.untraced (report : Report V T) : Report V T :=
  { report with trace := [] }

theorem Run.report?_mapSink_silent (run : Run P V T) :
    (run.mapSink fun _ => .silent).report? = run.report?.map Report.untraced := by
  cases run <;> rfl

theorem Run.report?_mapSink_limit (run : Run P V T) (room : Nat) :
    (run.mapSink (Sink.limit room)).report? = run.report? := by
  cases run with
  | running s => rfl
  | halted outcome r sink => cases sink <;> rfl

theorem Machine.lines_of_report? {m : Machine P V T} {input : Input V T} {moves : Nat}
    {report : Report V T} (h : m.report? input (.new none) moves = some report) (more : Nat) :
    (m.full input (moves + more)).sink.lines = report.trace := by
  rw [report?, ← full] at h
  cases hrun : m.full input moves with
  | running s =>
    rw [hrun] at h
    cases h
  | halted outcome r sink =>
    rw [hrun] at h
    cases h
    rw [full, run_add, ← full, hrun, run_halted]
    rfl

namespace Strategy

variable [DecidableEq V] [DecidableEq T] [Name V] [Name T] {strategy : Strategy} {g : Grammar V T}
  {start : V}

/-- The lines that a parse has written after a number of moves, if there is no limit to them. -/
def lines (strategy : Strategy) (g : Grammar V T) (source : Source V T) (moves : Nat) :
    List String :=
  let input : Input V T := ⟨source, g.isTerminal⟩
  match strategy.check g with
  | .error _ => []
  | .ok start =>
    match strategy with
    | topDown => ((TopDown.machine g start).full input moves).sink.lines
    | bottomUp => ((BottomUp.machine g start).full input moves).sink.lines

/-- Parsing with an accepted grammar is the run of some automaton. -/
theorem exists_machine (accepted : strategy.check g = .ok start) (source : Source V T) :
    ∃ (P : Type) (m : Machine P V T) (input : Input V T), ∀ moves,
      (∀ sink, strategy.parse g source sink moves = m.report? input sink moves) ∧
      strategy.reader g source (.new none) moves = (m.full input moves).reader ∧
      strategy.lines g source moves = (m.full input moves).sink.lines := by
  cases strategy with
  | topDown =>
    refine ⟨_, TopDown.machine g start, ⟨source, g.isTerminal⟩, fun moves => ⟨fun sink => ?_, ?_⟩⟩
    · exact TopDown.parse_eq_report accepted source sink moves
    · rw [reader, lines, accepted]
      exact ⟨rfl, rfl⟩
  | bottomUp =>
    refine ⟨_, BottomUp.machine g start, ⟨source, g.isTerminal⟩, fun moves => ⟨fun sink => ?_, ?_⟩⟩
    · exact BottomUp.parse_eq_report accepted source sink moves
    · rw [reader, lines, accepted]
      exact ⟨rfl, rfl⟩

/-- Tracing is transparent, and it is cut exactly at the first line that is refused. Let a parse
write its lines without a limit, be they finitely many or not. Without a trace the parse comes to
the same report, apart from the lines. On a page with room for all lines it comes to the same
report, and on a page that lacks room for some it stops when the first of these is due, with the
lines in front of it and with what has been read by then. -/
theorem parse_trace (accepted : strategy.check g = .ok start) (source : Source V T) :
    (∀ moves, strategy.parse g source .silent moves =
      (strategy.parse g source (.new none) moves).map Report.untraced) ∧
    (∀ moves more, strategy.lines g source moves <+: strategy.lines g source (moves + more)) ∧
    (∀ moves report, strategy.parse g source (.new none) moves = some report →
      ∀ more, strategy.lines g source (moves + more) = report.trace) ∧
    ∀ room,
      ((∀ moves, (strategy.lines g source moves).length ≤ room) →
        ∀ moves, strategy.parse g source (.new (some room)) moves =
          strategy.parse g source (.new none) moves) ∧
      ∀ moves, room < (strategy.lines g source moves).length →
        (strategy.lines g source room).length = room + 1 ∧
        (∀ k < room, (strategy.lines g source k).length ≤ room) ∧
        ∀ more, strategy.parse g source (.new (some room)) (room + more) =
          some ⟨.error .traceRefused, (strategy.reader g source (.new none) room).taken,
            (strategy.lines g source moves).take room⟩ := by
  obtain ⟨P, m, input, hmachine⟩ := exists_machine accepted source
  have hparse := fun moves => (hmachine moves).1
  have hreader := fun moves => (hmachine moves).2.1
  have hlines := fun moves => (hmachine moves).2.2
  simp only [hparse, hreader, hlines]
  refine ⟨fun moves => ?_, m.lines_prefix input, fun moves report hreport more => ?_,
    fun room => ⟨fun hroom moves => ?_, fun moves hroom => ⟨?_, fun k hk => ?_, fun more => ?_⟩⟩⟩
  · rw [Machine.report?, Machine.run_silent, Run.report?_mapSink_silent]
    rfl
  · exact Machine.lines_of_report? hreport more
  · rw [Machine.report?, Machine.run_limit (hroom moves), Run.report?_mapSink_limit]
    rfl
  · obtain ⟨_, c, r, written, hrun, hlength⟩ := Machine.running_full hroom
    rw [hrun]
    simpa [Run.sink, Sink.lines] using hlength
  · exact (m.length_lines_le input k).trans hk
  · have hreport := Machine.report?_of_halted (Machine.run_refused hroom) more
    rw [Sink.lines, List.reverse_reverse] at hreport
    exact hreport

/-- An endless input leads to an endless trace. A page with room for three lines ends the parse when
one symbol has been taken. -/
theorem parse_trace_endless :
    Strategy.topDown.check TopDown.optionalEnds = .ok 'S' ∧
      3 < (Strategy.topDown.lines TopDown.optionalEnds (.cycle [.terminal 'a']) 3).length ∧
      ∀ more, Strategy.topDown.parse TopDown.optionalEnds (.cycle [.terminal 'a']) (.new (some 3))
        (3 + more) = some ⟨.error .traceRefused, 1, ["(q, 1, e, S$)\n", "|- (q, 1, S1, aSE$)\n",
          "|- (q, 2, S1 a, SE$)\n"]⟩ := by
  have accepted : Strategy.topDown.check TopDown.optionalEnds = .ok 'S' := by rfl
  have hlength :
      3 < (Strategy.topDown.lines TopDown.optionalEnds (.cycle [.terminal 'a']) 3).length := by
    decide
  obtain ⟨_, _, _, hroom⟩ := parse_trace accepted (.cycle [.terminal 'a'])
  exact ⟨accepted, hlength, ((hroom 3).2 3 hlength).2.2⟩

end Strategy

end ContextFree
