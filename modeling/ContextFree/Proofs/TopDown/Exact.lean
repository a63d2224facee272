import ContextFree.Proofs.Result
import ContextFree.Proofs.TopDown.Termination

namespace ContextFree.TopDown

open Relation

variable {V T : Type} [DecidableEq V] [DecidableEq T] {g : Grammar V T} {word : List T}
  {fault : Option (InputFault V T)}

/-- The numbers of the productions on a path of the search. -/
def numbers (path : List (Point V T)) : List Nat :=
  path.filterMap Point.number?

omit [DecidableEq V] [DecidableEq T] in
theorem derivation_reverse (path : List (Point V T)) :
    derivation path.reverse = numbers path := by
  rw [derivation, List.reverse_reverse, numbers]

theorem goal_place {place : Place V T} (h : search g word fault place = .goal) :
    ∃ i, place = ([], i) ∧ Input.sight word fault i = some none := by
  match place with
  | ([], i) =>
    simp only [search] at h
    split at h
    · exact ⟨i, rfl, by assumption⟩
    · cases h
    · cases h
  | (.terminal t :: rest, i) =>
    simp only [search] at h
    split at h <;> cases h
  | (.nonterminal v :: rest, i) => cases h

/-- A solution of the search is a left parse of what is left of the word. -/
theorem parses_of_solves {place : Place V T} {path : List (Point V T)}
    (h : (search g word fault).Solves place path) :
    g.Parses (numbers path) place.1 (word.drop place.2) := by
  obtain ⟨e, hpath, hgoal⟩ := h
  induction hpath with
  | nil place =>
    obtain ⟨i, rfl, hsight⟩ := goal_place hgoal
    rw [List.drop_eq_nil_of_le (Input.sight_eq_some_none.mp hsight).2]
    exact .nil
  | @cons a place child _ path hleads _ ih =>
    obtain ⟨form, i⟩ := place
    have ih := ih hgoal
    cases form with
    | nil => exact False.elim (not_leads_nil hleads)
    | cons s rest =>
      cases s with
      | terminal t =>
        obtain ⟨hword, rfl, rfl⟩ := leads_terminal.mp hleads
        rw [List.drop_eq_getElem?_toList_append, hword]
        exact .terminal t ih
      | nonterminal v =>
        obtain ⟨rank, p, hp, rfl, rfl⟩ := leads_nonterminal.mp hleads
        obtain ⟨hin, rfl⟩ := Grammar.mem_alternatives.mp (List.mem_of_getElem? hp)
        exact .nonterminal hin ih

/-- Every left parse of what is left of a word is a solution of the search. -/
theorem solves_of_parses {list : List Nat} {form : List (Symbol V T)} {w : List T}
    (h : g.Parses list form w) {i : Nat} (hw : word.drop i = w) :
    ∃ path, (search g word none).Solves (form, i) path ∧ numbers path = list := by
  induction h generalizing i with
  | nil =>
    have hsight : Input.sight word (none : Option (InputFault V T)) i = some none :=
      Input.sight_eq_some_none.mpr ⟨rfl, List.drop_eq_nil_iff.mp hw⟩
    exact ⟨[], ⟨([], i), .nil _, by simp only [search, hsight]⟩, rfl⟩
  | @terminal _ rest w t _ ih =>
    have hdrop : word.drop (i + 1) = w := by
      rw [← List.tail_drop, hw, List.tail_cons]
    obtain ⟨path, ⟨e, hpath, hgoal⟩, hlist⟩ := ih hdrop
    exact ⟨.matched t :: path, ⟨e, .cons (leads_of_drop hw) hpath, hgoal⟩, hlist⟩
  | @nonterminal _ rest w p hp _ ih =>
    obtain ⟨path, ⟨e, hpath, hgoal⟩, hlist⟩ := ih hw
    obtain ⟨rank, hleads⟩ := exists_leads hp
    exact ⟨.expand p rank :: path, ⟨e, .cons hleads hpath, hgoal⟩, congrArg (p.number :: ·) hlist⟩

/-- The solutions of the search from the start are the left parses of the word. -/
theorem leftParse_iff_solves {start : V} {list : List Nat} :
    g.LeftParse list [.nonterminal start] (word.map .terminal) ↔
      ∃ path, (search g word none).Solves ([.nonterminal start], 0) path ∧ numbers path = list := by
  rw [Grammar.leftParse_iff_parses]
  constructor
  · intro h
    exact solves_of_parses h rfl
  · intro h
    obtain ⟨path, hpath, rfl⟩ := h
    exact parses_of_solves hpath

variable [Name V] [Name T] {start : V} {input : Input V T}

/-- The automaton carries the search to its end, as the search is finite. -/
theorem result (hi : input.Stops word fault) (hready : g.TopDownReady start) :
    (machine g start).Result input fault Point.Before
      ((search g word fault).Solves ([.nonterminal start], 0)) numbers := by
  have hacc : Acc (search g word fault).Child ([.nonterminal start], 0) :=
    acc_place hready.leftCorner [.nonterminal start] 0
  apply Machine.result_of_lawful (lawful hi) hacc pairwise_choices rfl rfl ?_ rfl fun _ h => h
  intro e path hgoal
  obtain ⟨i, rfl, hsight⟩ := goal_place hgoal
  have hlast := Machine.Moves.of_look hi (move_nil g start (i + 1) path.reverse) rfl hsight
  exact ⟨_, hlast, congrArg Move.accept (derivation_reverse path)⟩

/-- A parse with any number of moves is that run of the automaton. -/
theorem parse_eq_report (accepted : g.checkTopDown = .ok start) (source : Source V T) (sink : Sink)
    (moves : Nat) : Strategy.topDown.parse g source sink moves =
      (machine g start).report? ⟨source, g.isTerminal⟩ sink moves := by
  simp only [Strategy.parse, Strategy.check, accepted]

/-- On a word of the alphabet, top-down parsing comes to a report, and no further moves change it.
It gives a derivation exactly if the word can be derived from the start, and then the first of all
left parses of the word; if there is none, it says so. -/
theorem parse_first_leftParse (accepted : g.checkTopDown = .ok start) (word : List T)
    (alphabet : ∀ t ∈ word, g.isTerminal t) :
    g.start = some start ∧ ∃ moves report,
      (∀ more, Strategy.topDown.parse g (.ofList (word.map .terminal)) .silent (moves + more) =
        some report) ∧
      ((∃ list, report.outcome = .ok list) ↔
        g.Derives [.nonterminal start] (word.map .terminal)) ∧
      (∀ list, report.outcome = .ok list →
        g.LeftParse list [.nonterminal start] (word.map .terminal) ∧
        ∀ other, g.LeftParse other [.nonterminal start] (word.map .terminal) →
          other = list ∨ Earlier (· < ·) list other) ∧
      ((¬ ∃ list, g.LeftParse list [.nonterminal start] (word.map .terminal)) →
        report.outcome = .error .noDerivation) := by
  have hready := Grammar.topDownReady_of_check accepted
  refine ⟨hready.start_eq, ?_⟩
  simp only [parse_eq_report accepted, Grammar.derives_iff_leftParse]
  have hi := Input.stops_ofList (V := V) word alphabet
  obtain ⟨moves, report, hreport, hok, hfirst, hnone⟩ := (result hi hready).report
  have hsome : (∃ list, g.LeftParse list [.nonterminal start] (word.map .terminal)) ↔
      ∃ path, (search g word none).Solves ([.nonterminal start], 0) path := by
    simp only [leftParse_iff_solves]
    constructor
    · intro h
      obtain ⟨list, path, hsolves, _⟩ := h
      exact ⟨path, hsolves⟩
    · intro h
      obtain ⟨path, hsolves⟩ := h
      exact ⟨_, path, hsolves, rfl⟩
  rw [hsome]
  refine ⟨moves, report, hreport, hok, ?_, hnone⟩
  intro list hlist
  obtain ⟨path, rfl, hsolves, hleast⟩ := hfirst list hlist
  refine ⟨leftParse_iff_solves.mpr ⟨path, hsolves, rfl⟩, ?_⟩
  intro other hother
  obtain ⟨path', hsolves', rfl⟩ := leftParse_iff_solves.mp hother
  rcases hleast path' hsolves' with rfl | hearlier
  · exact .inl rfl
  · exact .inr (hearlier.filterMap _ number_of_before)

/-- Nested `a`s, each with an optional `b` behind what it encloses. -/
def optionalEnds : Grammar Char Char :=
  .ofRules none [⟨'S', [.terminal 'a', .nonterminal 'S', .nonterminal 'E']⟩, ⟨'S', []⟩,
    ⟨'E', [.terminal 'b']⟩, ⟨'E', []⟩]

/-- The word `aab` has two left parses, as either `a` can be the one with a `b`. -/
theorem parse_first_leftParse_optionalEnds :
    optionalEnds.checkTopDown = .ok 'S' ∧ (∀ t ∈ ['a', 'a', 'b'], optionalEnds.isTerminal t) ∧
      ∃ moves report,
        (∀ more, Strategy.topDown.parse optionalEnds (.ofList (['a', 'a', 'b'].map .terminal))
          .silent (moves + more) = some report) ∧
        ∀ list, report.outcome = .ok list →
          ∀ other, optionalEnds.LeftParse other [.nonterminal 'S'] (['a', 'a', 'b'].map .terminal) →
            other = list ∨ Earlier (· < ·) list other := by
  have accepted : optionalEnds.checkTopDown = .ok 'S' := by rfl
  have alphabet : ∀ t ∈ ['a', 'a', 'b'], optionalEnds.isTerminal t :=
    List.all_eq_true.mp (by rfl)
  obtain ⟨_, moves, report, hreport, _, hfirst, _⟩ := parse_first_leftParse accepted _ alphabet
  exact ⟨accepted, alphabet, moves, report, hreport, fun list hlist => (hfirst list hlist).2⟩

/-- On every input that ends or has a bad symbol, the automaton of an accepted grammar halts. -/
theorem run_halts (accepted : g.checkTopDown = .ok start) (source : Source V T)
    (stops : source.Stops g.isTerminal) (sink : Sink) :
    ∃ moves outcome reader sink',
      (machine g start).run ⟨source, g.isTerminal⟩ moves ((machine g start).start sink) =
        .halted outcome reader sink' := by
  obtain ⟨word, fault, hi⟩ := Input.exists_stops stops
  obtain ⟨outcome, hhalts⟩ := (result hi (Grammar.topDownReady_of_check accepted)).halts
  exact hhalts.halted sink

/-- An endless input, in which `c` is no terminal of the alphabet. -/
def endlessInput : Source Char Char :=
  .cycle [.terminal 'a', .terminal 'a', .terminal 'c']

theorem run_halts_endlessInput :
    optionalEnds.checkTopDown = .ok 'S' ∧ endlessInput.Stops optionalEnds.isTerminal ∧
      ∃ moves outcome reader sink',
        (machine optionalEnds 'S').run ⟨endlessInput, optionalEnds.isTerminal⟩ moves
          ((machine optionalEnds 'S').start (.new none)) = .halted outcome reader sink' := by
  have accepted : optionalEnds.checkTopDown = .ok 'S' := by rfl
  have stops : endlessInput.Stops optionalEnds.isTerminal :=
    ⟨2, .inr (.inr ⟨'c', rfl, by decide⟩)⟩
  exact ⟨accepted, stops, run_halts accepted _ stops _⟩

end ContextFree.TopDown
