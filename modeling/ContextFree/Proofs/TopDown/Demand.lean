import ContextFree.Proofs.Faults
import ContextFree.Proofs.Laziness

namespace ContextFree

variable {V T : Type}

/-- In front of a symbol that a run has taken, the source has brought terminals of the alphabet. -/
theorem Run.Sound.begins {P : Type} {source : Source V T} {isTerminal : T → Bool}
    {run : Run P V T} (h : run.Sound ⟨source, isTerminal⟩) {i : Nat} (hi : i < run.reader.taken) :
    ∃ word : List T, word.length = i ∧ source.Begins isTerminal word ∧ (source i).isSome := by
  have hsome := h.drawn.1 i hi
  have hbuffer : source.Begins isTerminal run.reader.buffer.toList ∧
      i ≤ run.reader.buffer.toList.length := by
    cases run with
    | running s =>
      have hlive : s.reader.Live ⟨source, isTerminal⟩ := h
      exact ⟨hlive.begins, Nat.le_of_lt (Nat.lt_of_lt_of_eq hi hlive.taken)⟩
    | halted outcome r sink =>
      rcases h with ⟨hlive, _⟩ | ⟨f, hfailed, _⟩
      · exact ⟨hlive.begins, Nat.le_of_lt (Nat.lt_of_lt_of_eq hi hlive.taken)⟩
      · exact ⟨hfailed.begins, Nat.le_of_lt_succ (Nat.lt_of_lt_of_eq hi hfailed.taken)⟩
  exact ⟨run.reader.buffer.toList.take i, by simpa using hbuffer.2, hbuffer.1.take i, hsome⟩

namespace Grammar

/-- Leftmost rewriting leads to a word alone, or to the word with a terminal behind it. -/
def Demands (g : Grammar V T) (form : List (Symbol V T)) (word : List T) : Prop :=
  ∃ numbers back, g.LeftParse numbers form (word.map .terminal ++ back) ∧
    (back = [] ∨ ∃ t rest, back = .terminal t :: rest)

/-- A word can be matched against a string so that the string then ends or goes on with a terminal,
by what the string begins with. -/
inductive Looks (g : Grammar V T) : List (Symbol V T) → List T → Prop
  | nil : Looks g [] []
  | front (t : T) (form : List (Symbol V T)) : Looks g (.terminal t :: form) []
  | terminal {form : List (Symbol V T)} {w : List T} (t : T) :
      Looks g form w → Looks g (.terminal t :: form) (t :: w)
  | nonterminal {form : List (Symbol V T)} {w : List T} {p : Production V T}
      (hp : p ∈ g.productions) :
      Looks g (p.body ++ form) w → Looks g (.nonterminal p.head :: form) w

variable {g : Grammar V T} {form form' : List (Symbol V T)}

theorem looks_word (w : List T) {back : List (Symbol V T)}
    (hback : back = [] ∨ ∃ t rest, back = .terminal t :: rest) :
    g.Looks (w.map .terminal ++ back) w := by
  induction w with
  | nil =>
    rcases hback with rfl | ⟨t, rest, rfl⟩
    · exact .nil
    · exact .front t rest
  | cons t w ih => exact .terminal t ih

theorem Looks.behind_word (hlooks : ∀ w, g.Looks form w → g.Looks form' w) (x : List T)
    {w : List T} (h : g.Looks (x.map .terminal ++ form) w) :
    g.Looks (x.map .terminal ++ form') w := by
  induction x generalizing w with
  | nil => exact hlooks w h
  | cons t x ih =>
    cases h with
    | front _ _ => exact .front t _
    | terminal _ h => exact .terminal t (ih h)

/-- What a word is matched against may be told by single steps or by what a string begins with. -/
theorem demands_iff_looks {w : List T} : g.Demands form w ↔ g.Looks form w := by
  constructor
  · intro h
    obtain ⟨numbers, back, hparse, hback⟩ := h
    generalize hform : w.map Symbol.terminal ++ back = form' at hparse
    induction hparse with
    | nil =>
      subst hform
      exact looks_word w hback
    | cons hs _ ih =>
      obtain ⟨x, rest, p, hp, _, rfl, rfl⟩ := hs
      have ih := ih hform
      rw [List.append_assoc] at ih
      exact ih.behind_word (fun _ => .nonterminal hp) x
  · intro h
    induction h with
    | nil => exact ⟨[], [], .nil _, .inl rfl⟩
    | front t form => exact ⟨[], _, .nil _, .inr ⟨t, form, rfl⟩⟩
    | terminal t _ ih =>
      obtain ⟨numbers, back, hparse, hback⟩ := ih
      exact ⟨numbers, back, by simpa using hparse.context [t] [], hback⟩
    | @nonterminal form w p hp _ ih =>
      obtain ⟨numbers, back, hparse, hback⟩ := ih
      exact ⟨_, back, .cons ⟨[], form, p, hp, rfl, rfl, rfl⟩ hparse, hback⟩

theorem Looks.take {w : List T} (h : g.Looks form w) (n : Nat) : g.Looks form (w.take n) := by
  induction h generalizing n with
  | nil => simpa using Looks.nil
  | front t form => simpa using Looks.front t form
  | @terminal form w t _ ih =>
    cases n with
    | zero => exact .front t form
    | succ n => exact .terminal t (ih n)
  | nonterminal hp _ ih => exact .nonterminal hp (ih n)

theorem Demands.take {w : List T} (h : g.Demands form w) (n : Nat) : g.Demands form (w.take n) :=
  demands_iff_looks.mpr ((demands_iff_looks.mp h).take n)

end Grammar

namespace TopDown

variable [DecidableEq V] [DecidableEq T] {g : Grammar V T} {start : V} {word : List T}
  {f : InputFault V T}

theorem options_blocked {place : Place V T} {choices : List (Point V T × Place V T)}
    (h : search g word (some f) place = .options choices true) :
    word.length ≤ place.2 ∧ (place.1 = [] ∨ ∃ t rest, place.1 = .terminal t :: rest) := by
  obtain ⟨form, i⟩ := place
  have hle : Input.sight word (some f) i = none → word.length ≤ i := fun hs =>
    (Input.sight_eq_none.mp hs).choose_spec.2
  cases form with
  | nil =>
    simp only [search] at h
    split at h
    · cases h
    · cases h
    · exact ⟨hle (by assumption), .inl rfl⟩
  | cons s rest =>
    cases s with
    | terminal t =>
      simp only [search] at h
      split at h
      · cases h
      · exact ⟨hle (by assumption), .inr ⟨t, rest, rfl⟩⟩
    | nonterminal v => cases h

/-- Where the search is blocked, leftmost rewriting has led to what is left of the word. -/
theorem looks_of_blocks {place : Place V T} (h : (search g word (some f)).Blocks place) :
    g.Looks place.1 (word.drop place.2) := by
  obtain ⟨path, e, choices, hpath, he⟩ := h
  induction hpath with
  | nil place =>
    obtain ⟨hle, hform⟩ := options_blocked he
    rw [List.drop_eq_nil_of_le hle]
    exact Grammar.looks_word [] hform
  | @cons a place child _ path hleads _ ih =>
    obtain ⟨form, i⟩ := place
    have ih := ih he
    cases form with
    | nil => exact False.elim (not_leads_nil hleads)
    | cons s rest =>
      cases s with
      | terminal t =>
        obtain ⟨hword, rfl, rfl⟩ := leads_terminal.mp hleads
        rw [List.drop_eq_getElem?_toList_append, hword]
        exact .terminal t ih
      | nonterminal v =>
        obtain ⟨rank, p, hp, rfl, rfl⟩ := leads_nonterminal.mp hleads
        obtain ⟨hin, rfl⟩ := Grammar.mem_alternatives.mp (List.mem_of_getElem? hp)
        exact .nonterminal hin ih

theorem blocks_of_looks {form : List (Symbol V T)} {w : List T} (h : g.Looks form w) {i : Nat}
    (hw : word.drop i = w) : (search g word (some f)).Blocks (form, i) := by
  induction h generalizing i with
  | nil =>
    have hsight : Input.sight word (some f) i = none :=
      Input.sight_eq_none.mpr ⟨f, rfl, List.drop_eq_nil_iff.mp hw⟩
    exact ⟨[], ([], i), [], .nil _, by simp only [search, hsight]⟩
  | front t form =>
    have hsight : Input.sight word (some f) i = none :=
      Input.sight_eq_none.mpr ⟨f, rfl, List.drop_eq_nil_iff.mp hw⟩
    exact ⟨[], (.terminal t :: form, i), [], .nil _, by simp only [search, hsight]⟩
  | @terminal _ w t _ ih =>
    have hdrop : word.drop (i + 1) = w := by
      rw [← List.tail_drop, hw, List.tail_cons]
    exact .of_leads (leads_of_drop hw) (ih hdrop)
  | nonterminal hp _ ih =>
    obtain ⟨rank, hleads⟩ := exists_leads hp
    exact .of_leads hleads (ih hw)

/-- The search meets the fault behind a word exactly if leftmost rewriting demands what follows the
word. -/
theorem blocks_iff_demands :
    (search g word (some f)).Blocks ([.nonterminal start], 0) ↔
      g.Demands [.nonterminal start] word := by
  rw [Grammar.demands_iff_looks]
  constructor
  · intro h
    exact looks_of_blocks h
  · intro h
    exact blocks_of_looks h rfl

variable [Name V] [Name T] {input : Input V T}

/-- Top-down parsing reports the fault of its input if leftmost rewriting demands it. -/
theorem halts_of_demands (hready : g.TopDownReady start) (hi : input.Stops word (some f))
    (h : g.Demands [.nonterminal start] word) :
    (machine g start).Halts input (.error (.badInput f)) := by
  obtain ⟨f', hf', hhalts⟩ := Machine.halts_of_blocks (lawful hi)
    (acc_place hready.leftCorner [.nonterminal start] 0) pairwise_choices rfl rfl (fun _ h => h)
    (not_solves_of_fault _) (blocks_iff_demands.mpr h)
  cases hf'
  exact hhalts

/-- Top-down parsing finds that there is no derivation before it meets a fault that leftmost
rewriting does not demand. -/
theorem halts_of_not_demands (hready : g.TopDownReady start) (hi : input.Stops word (some f))
    (h : ¬ g.Demands [.nonterminal start] word) :
    (machine g start).Halts input (.error .noDerivation) :=
  Machine.halts_of_not_blocks (lawful hi) (acc_place hready.leftCorner [.nonterminal start] 0)
    pairwise_choices rfl rfl rfl (not_solves_of_fault _) fun hblocks =>
      h (blocks_iff_demands.mp hblocks)

section Taken

variable {source : Source V T} {isTerminal : T → Bool} {moves : Nat}
  {outcome : Except (ParseError V T) (List Nat)} {r : Reader V T}

/-- If a symbol is not demanded, the run ends without it: it would end in the same way with a fault
in place of the symbol, and that fault is not met. -/
theorem demands_of_lt_taken (hready : g.TopDownReady start)
    (hrun : (machine g start).run ⟨source, isTerminal⟩ moves ((machine g start).start .silent) =
      .halted outcome r .silent)
    (hbegins : source.Begins isTerminal word) (hlt : word.length < r.taken) :
    g.Demands [.nonterminal start] word := by
  refine Classical.byContradiction fun hdemands => ?_
  have hi := hbegins.stops_spoilt start
  obtain ⟨moves', r', hrun'⟩ := halts_of_not_demands hready hi hdemands
  have hsound := (machine g start).sound ⟨source.spoilt word.length start, isTerminal⟩ .silent moves'
  rw [hrun'] at hsound
  have hlive := (hsound.resolve_right (by simp)).1
  have hended : r'.status ≠ .ended := fun hended => by
    cases (hi.unique (hlive.stops_of_ended hended)).2
  have hle : r'.taken ≤ word.length := by
    rw [hlive.taken]
    exact hlive.size_le hi
  have hsame := Machine.run_of_agree hrun' hended fun i hi =>
    (if_pos (Nat.lt_of_lt_of_le hi hle) : source.spoilt word.length start i = source i).symm
  obtain ⟨_, rfl, _⟩ := Machine.halted_unique hrun hsame
  omega

/-- A symbol that is demanded is taken: a run that ends before it would end in the same way with a
fault in its place, though that fault is met. -/
theorem lt_taken_of_demands (hready : g.TopDownReady start)
    (hrun : (machine g start).run ⟨source, isTerminal⟩ moves ((machine g start).start .silent) =
      .halted outcome r .silent)
    (hbegins : source.Begins isTerminal word) (hsome : (source word.length).isSome)
    (hdemands : g.Demands [.nonterminal start] word) : word.length < r.taken := by
  refine Nat.lt_of_not_le fun hle => ?_
  have hsound := (machine g start).sound ⟨source, isTerminal⟩ .silent moves
  rw [hrun] at hsound
  rcases hsound with ⟨hlive, hout⟩ | ⟨f, hfailed, _⟩
  · have hended : r.status ≠ .ended := by
      intro hended
      have hnone : source r.taken = none := by
        rw [hlive.taken]
        exact Input.answer_eq_none.mp (hlive.answer_of_ended hended)
      rcases Nat.lt_or_eq_of_le hle with hlt | heq
      · have hword := (hbegins r.taken _ (List.getElem?_eq_getElem hlt)).1
        rw [hnone] at hword
        cases hword
      · rw [← heq, hnone] at hsome
        cases hsome
    have hlength : r.buffer.toList.length = r.taken := hlive.taken.symm
    have hread : r.buffer.toList = word.take r.taken := by
      rw [← hlength] at hle ⊢
      exact hbegins.eq_take hlive.begins hle
    have hhalts := halts_of_demands hready (hlive.stops_spoilt start)
      (hread ▸ hdemands.take r.taken)
    have hsame := Machine.run_of_agree hrun hended fun i hi =>
      (if_pos hi : source.spoilt r.taken start i = source i)
    exact hout _ (Machine.Halts.unique ⟨moves, r, hsame⟩ hhalts)
  · have htaken := hfailed.taken
    have hword := hbegins r.buffer.size _ (List.getElem?_eq_getElem (by omega))
    have hfault := hfailed.fault
    rw [Input.answer_eq_ok.mpr hword] at hfault
    cases hfault

end Taken

/-- On an input that ends or has a bad symbol, top-down parsing comes to a report, and no further
moves change it. It takes a symbol exactly if what comes before it is a word of the alphabet that
leftmost rewriting can reach alone or with a terminal behind it. So the first bad symbol of an input
is reported if it is demanded in this way, and otherwise there is no derivation. -/
theorem parse_taken_exact (accepted : g.checkTopDown = .ok start) (source : Source V T)
    (stops : source.Stops g.isTerminal) :
    ∃ moves report,
      (∀ more, Strategy.topDown.parse g source .silent (moves + more) = some report) ∧
      (∀ i, i < report.taken ↔ ∃ word : List T, word.length = i ∧
        source.Begins g.isTerminal word ∧ (source i).isSome ∧
          g.Demands [.nonterminal start] word) ∧
      ∀ word f, (⟨source, g.isTerminal⟩ : Input V T).Stops word (some f) →
        (g.Demands [.nonterminal start] word → report.outcome = .error (.badInput f)) ∧
          (¬ g.Demands [.nonterminal start] word → report.outcome = .error .noDerivation) := by
  have hready := Grammar.topDownReady_of_check accepted
  obtain ⟨word, fault, hi⟩ := Input.exists_stops stops
  obtain ⟨outcome, moves, r, hrun⟩ := (result hi hready).halts
  refine ⟨moves, ⟨outcome, r.taken, []⟩, fun more => ?_, fun i => ⟨fun hlt => ?_, fun h => ?_⟩, ?_⟩
  · rw [parse_eq_report accepted]
    exact Machine.report?_of_halted hrun more
  · have hsound := (machine g start).sound ⟨source, g.isTerminal⟩ .silent moves
    rw [hrun] at hsound
    obtain ⟨word, rfl, hbegins, hsome⟩ := hsound.begins hlt
    exact ⟨word, rfl, hbegins, hsome, demands_of_lt_taken hready hrun hbegins hlt⟩
  · obtain ⟨word, rfl, hbegins, hsome, hdemands⟩ := h
    exact lt_taken_of_demands hready hrun hbegins hsome hdemands
  · intro word f hi
    constructor
    · intro hdemands
      exact Machine.Halts.unique ⟨moves, r, hrun⟩ (halts_of_demands hready hi hdemands)
    · intro hdemands
      exact Machine.Halts.unique ⟨moves, r, hrun⟩ (halts_of_not_demands hready hi hdemands)

/-- An input with a nonterminal behind a row that could end there. -/
def brokenRow : Source Char Char :=
  .ofList [.terminal 'a', .terminal 'b', .nonterminal 'S']

/-- The nonterminal is demanded, though only behind the second alternative of `S`. -/
theorem parse_taken_exact_brokenRow :
    optionalEnds.checkTopDown = .ok 'S' ∧ brokenRow.Stops optionalEnds.isTerminal ∧
      ∃ moves report,
        (∀ more, Strategy.topDown.parse optionalEnds brokenRow .silent (moves + more) =
          some report) ∧
        optionalEnds.Demands [.nonterminal 'S'] ['a', 'b'] ∧ 2 < report.taken ∧
        report.outcome = .error (.badInput (.notATerminal 3 'S')) := by
  have accepted : optionalEnds.checkTopDown = .ok 'S' := by rfl
  have stops : brokenRow.Stops optionalEnds.isTerminal := ⟨2, .inr (.inl ⟨'S', rfl⟩)⟩
  have hfault : (⟨brokenRow, optionalEnds.isTerminal⟩ : Input Char Char).Stops ['a', 'b']
      (some (.notATerminal 3 'S')) := by
    refine ⟨fun i t ht => ?_, rfl⟩
    match i with
    | 0 => cases ht; rfl
    | 1 => cases ht; rfl
    | i + 2 => simp at ht
  have hdemands : optionalEnds.Demands [.nonterminal 'S'] ['a', 'b'] := by
    have hnest : ⟨⟨'S', [.terminal 'a', .nonterminal 'S', .nonterminal 'E']⟩, 1⟩ ∈
        optionalEnds.productions := by decide
    have hend : ⟨⟨'S', []⟩, 2⟩ ∈ optionalEnds.productions := by decide
    have hoption : ⟨⟨'E', [.terminal 'b']⟩, 3⟩ ∈ optionalEnds.productions := by decide
    rw [Grammar.demands_iff_looks]
    exact .nonterminal hnest (.terminal 'a' (.nonterminal hend (.nonterminal hoption
      (.terminal 'b' .nil))))
  obtain ⟨moves, report, hreport, htaken, hbad⟩ := parse_taken_exact accepted _ stops
  refine ⟨accepted, stops, moves, report, hreport, hdemands, ?_, (hbad _ _ hfault).1 hdemands⟩
  exact (htaken 2).mpr ⟨['a', 'b'], rfl, hfault.begins, rfl, hdemands⟩

end TopDown

end ContextFree
