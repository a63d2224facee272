import ContextFree.Proofs.Decision
import ContextFree.Proofs.Format
import ContextFree.Proofs.History
import ContextFree.Proofs.Trace

namespace ContextFree

namespace Machine

variable {P V T : Type}

/-- The configurations that a run passes through, in their order: it is in the first of them at the
start, in the next one a move later, and so on up to the last one, from which it halts. -/
def Passes (m : Machine P V T) (input : Input V T) (cs : List (Configuration P V T)) : Prop :=
  ∀ moves c, m.Visits input .silent moves c ↔ cs[moves]? = some c

/-- The full run has visited some configurations up to a number of moves, and the lines it has
written show these. -/
structure Transcribes (m : Machine P V T) (input : Input V T) (moves : Nat)
    (cs : List (Configuration P V T)) : Prop where
  visits : ∀ earlier ≤ moves, ∀ c,
    m.Visits input (.new none) earlier c ↔ cs[earlier]? = some c
  length : cs.length ≤ moves + 1
  lines : (String.join (m.full input moves).sink.lines).toList =
    Format.trace (fun c => (m.line c).toList) cs

variable {m : Machine P V T} {input : Input V T} {moves : Nat} {c c' : Configuration P V T}
  {r : Reader V T} {sink : Sink} {cs : List (Configuration P V T)}
  {outcome : Except (ParseError V T) (List Nat)}

theorem visits_of_full (h : m.full input moves = .running ⟨c, r, sink⟩) :
    m.Visits input (.new none) moves c' ↔ c = c' := by
  constructor
  · exact fun h' => Visits.unique ⟨r, sink, h⟩ h'
  · rintro rfl
    exact ⟨r, sink, h⟩

theorem not_visits_of_full (h : m.full input moves = .halted outcome r sink) :
    ¬ m.Visits input (.new none) moves c := by
  rintro ⟨r', sink', hrun⟩
  cases h.symm.trans hrun

/-- Without a trace a run visits the same configurations. -/
theorem visits_silent :
    m.Visits input .silent moves c ↔ m.Visits input (.new none) moves c := by
  rw [Visits, run_silent]
  cases hfull : m.full input moves with
  | halted outcome r sink =>
    refine iff_of_false ?_ (not_visits_of_full hfull)
    rintro ⟨r', sink', hrun⟩
    cases hrun
  | running s =>
    obtain ⟨c', r, sink⟩ := s
    rw [visits_of_full hfull]
    constructor
    · rintro ⟨r', sink', hrun⟩
      cases hrun
      rfl
    · rintro rfl
      exact ⟨r, .silent, rfl⟩

theorem transcribes_zero (m : Machine P V T) (input : Input V T) :
    m.Transcribes input 0 [m.initial] := by
  obtain ⟨l, hwrite, hfull⟩ := m.full_zero input
  refine ⟨?_, Nat.le_refl _, ?_⟩
  · intro earlier hle c
    obtain rfl := Nat.le_zero.mp hle
    rw [visits_of_full hfull]
    simp
  · cases hwrite
    simp [hfull, Run.sink, Sink.lines, Format.trace, String.join]

/-- A run that is going on is in the last of the configurations it has visited. -/
theorem Transcribes.length_eq (h : m.Transcribes input moves cs)
    (hfull : m.full input moves = .running ⟨c, r, sink⟩) : cs.length = moves + 1 := by
  have hlast := (h.visits moves (Nat.le_refl _) c).mp ⟨r, sink, hfull⟩
  obtain ⟨hlt, _⟩ := List.getElem?_eq_some_iff.mp hlast
  exact Nat.le_antisymm h.length hlt

/-- The move that halts a run adds no configuration, and neither does a run that has halted. -/
theorem Transcribes.halt (h : m.Transcribes input moves cs)
    (hfull : m.full input (moves + 1) = .halted outcome r (m.full input moves).sink) :
    m.Transcribes input (moves + 1) cs := by
  refine ⟨?_, Nat.le_succ_of_le h.length, ?_⟩
  · intro earlier hle c
    rcases Nat.le_succ_iff.mp hle with hle | rfl
    · exact h.visits earlier hle c
    · simp [not_visits_of_full hfull, List.getElem?_eq_none h.length]
  · rw [hfull, Run.sink, h.lines]

/-- A configuration that is entered is added, and its line is written. -/
theorem Transcribes.enter {written : List String} {l : String}
    (h : m.Transcribes input moves cs)
    (hbefore : m.full input moves = .running ⟨c, r, .page none written⟩)
    (hwrite : (Sink.page none written).write m.line c' = some (.page none (l :: written)))
    {r' : Reader V T}
    (hfull : m.full input (moves + 1) = .running ⟨c', r', .page none (l :: written)⟩) :
    m.Transcribes input (moves + 1) (cs ++ [c']) := by
  have hlength := h.length_eq hbefore
  refine ⟨?_, by simp [hlength], ?_⟩
  · intro earlier hle c
    rcases Nat.le_succ_iff.mp hle with hle | rfl
    · rw [h.visits earlier hle, List.getElem?_append_left (hlength ▸ Nat.lt_succ_of_le hle)]
    · rw [visits_of_full hfull, Nat.succ_eq_add_one, ← hlength, List.getElem?_concat_length,
        Option.some.injEq]
  · have hne : cs ≠ [] := List.ne_nil_of_length_eq_add_one hlength
    have hlines := h.lines
    have htraced := m.traced_full input moves
    rw [hbefore] at hlines htraced
    cases htraced with
    | running _ _ hwritten =>
      obtain ⟨first, older, rfl⟩ := List.exists_cons_of_length_eq_add_one hwritten
      cases hwrite
      rw [hfull, Run.sink, Sink.lines, List.reverse_cons, Format.trace_concat _ hne, ← hlines]
      simp [Run.sink, Sink.lines]

theorem exists_transcribes (m : Machine P V T) (input : Input V T) (moves : Nat) :
    ∃ cs, m.Transcribes input moves cs := by
  induction moves with
  | zero => exact ⟨_, m.transcribes_zero input⟩
  | succ k ih =>
    obtain ⟨cs, hcs⟩ := ih
    have hgrows := m.grows_full input k
    generalize hbefore : m.full input k = run, hafter : m.full input (k + 1) = run' at hgrows
    cases hgrows with
    | rests => exact ⟨cs, hcs.halt (by rw [hafter, hbefore, Run.sink])⟩
    | halts _ => exact ⟨cs, hcs.halt (by rw [hafter, hbefore, Run.sink])⟩
    | writes _ hwrite => exact ⟨_, hcs.enter hbefore hwrite hafter⟩

/-- Once the run has halted, no configuration is missing. -/
theorem Transcribes.passes (h : m.Transcribes input moves cs)
    (hfull : m.full input moves = .halted outcome r sink) : m.Passes input cs := by
  intro steps c
  rw [visits_silent]
  rcases Nat.lt_or_ge moves steps with hlt | hle
  · obtain ⟨more, rfl⟩ := Nat.exists_eq_add_of_lt hlt
    have hrest : m.full input (moves + more + 1) = .halted outcome r sink := by
      rw [full, Nat.add_assoc, run_add, ← full, hfull, run_halted]
    have hlength : cs.length ≤ moves + more + 1 := h.length.trans (by omega)
    simp [not_visits_of_full hrest, List.getElem?_eq_none hlength]
  · exact h.visits steps hle c

theorem exists_full_of_silent (h : m.run input moves (m.start .silent) = .halted outcome r sink) :
    ∃ sink', m.full input moves = .halted outcome r sink' := by
  rw [run_silent] at h
  cases hfull : m.full input moves with
  | running s =>
    rw [hfull] at h
    cases h
  | halted outcome' r' sink' =>
    rw [hfull] at h
    cases h
    exact ⟨sink', rfl⟩

/-- A run that halts passes through finitely many configurations. A trace without a limit shows
these, and changes neither the outcome nor what the run takes. -/
theorem Halts.transcript {form : Configuration P V T → List Char} (h : m.Halts input outcome)
    (hform : ∀ c, (m.line c).toList = form c) :
    ∃ cs moves taken trace, m.Passes input cs ∧
      String.join trace = String.ofList (Format.trace form cs) ∧
      ∀ more, m.report? input .silent (moves + more) = some ⟨outcome, taken, []⟩ ∧
        m.report? input (.new none) (moves + more) = some ⟨outcome, taken, trace⟩ := by
  obtain ⟨moves, r, hsilent⟩ := h
  obtain ⟨sink, hfull⟩ := exists_full_of_silent hsilent
  obtain ⟨cs, hcs⟩ := m.exists_transcribes input moves
  have hlines := hcs.lines
  rw [funext hform] at hlines
  refine ⟨cs, moves, r.taken, sink.lines, hcs.passes hfull, ?_,
    fun more => ⟨report?_of_halted hsilent more, report?_of_halted hfull more⟩⟩
  rw [← hlines, hfull, String.ofList_toList]
  rfl

end Machine

namespace Strategy

variable {strategy : Strategy} {g : Grammar String Char} {start : String}
  {source : Source String Char} {outcome : Except (ParseError String Char) (List Nat)}

/-- A text shows the configurations that the automaton of a strategy passes through. -/
inductive Shows (g : Grammar String Char) (start : String) (source : Source String Char) :
    Strategy → List Char → Prop
  | topDown {cs : List (TopDown.Config String Char)}
      (hpasses : (TopDown.machine g start).Passes ⟨source, g.isTerminal⟩ cs) :
      Shows g start source .topDown (Format.trace Format.topDown cs)
  | bottomUp {cs : List (BottomUp.Config String Char)}
      (hpasses : (BottomUp.machine g start).Passes ⟨source, g.isTerminal⟩ cs) :
      Shows g start source .bottomUp (Format.trace Format.bottomUp cs)

/-- In a number of moves, and in any more, a parse comes to an outcome, and to the lines of a text
if these are asked for. -/
def Reports (strategy : Strategy) (g : Grammar String Char) (source : Source String Char)
    (moves : Nat) (outcome : Except (ParseError String Char) (List Nat)) (shown : List Char) :
    Prop :=
  ∃ taken trace, String.join trace = String.ofList shown ∧
    ∀ more, strategy.parse g source .silent (moves + more) = some ⟨outcome, taken, []⟩ ∧
      strategy.parse g source (.new none) (moves + more) = some ⟨outcome, taken, trace⟩

/-- What a parse reports of a defect needs no moves. -/
theorem reports_of_defect {defect : Defect String} (h : strategy.check g = .error defect)
    (source : Source String Char) (moves : Nat) :
    strategy.Reports g source moves (.error (.badGrammar defect)) [] := by
  refine ⟨0, [], rfl, fun more => ?_⟩
  unfold parse
  rw [h]
  exact ⟨rfl, rfl⟩

theorem Halts.exists_reports (accepted : strategy.check g = .ok start)
    (h : strategy.Halts g start source outcome) :
    ∃ shown, strategy.Shows g start source shown ∧
      ∃ moves, strategy.Reports g source moves outcome shown := by
  cases strategy with
  | topDown =>
    obtain ⟨cs, moves, taken, trace, hpasses, htrace, hreport⟩ :=
      Machine.Halts.transcript h TopDown.toList_line
    refine ⟨_, .topDown hpasses, moves, taken, trace, htrace, ?_⟩
    simpa only [TopDown.parse_eq_report accepted] using hreport
  | bottomUp =>
    obtain ⟨cs, moves, taken, trace, hpasses, htrace, hreport⟩ :=
      Machine.Halts.transcript h BottomUp.toList_line
    refine ⟨_, .bottomUp hpasses, moves, taken, trace, htrace, ?_⟩
    simpa only [BottomUp.parse_eq_report accepted] using hreport

end Strategy

end ContextFree
