import ContextFree.Proofs.BottomUp.Actions
import ContextFree.Proofs.Result

namespace ContextFree.BottomUp

open Relation

variable {V T : Type} {g : Grammar V T} {start : V} {word : List T}

/-- The productions of a history are the reductions among its actions. -/
theorem derivation_reverse (path : List (Point V T)) :
    derivation path.reverse = Action.reductions (path.map Point.action) := by
  have hnumber : Action.number? ∘ Point.action = (Point.number? : Point V T → Option Nat) := by
    funext a
    cases a with
    | shift => rfl
    | reduce p => rfl
  rw [derivation, Action.reductions, List.filterMap_reverse, List.filterMap_map, hnumber]

theorem action_before {path path' : List (Point V T)} (h : Earlier Point.Before path path') :
    Earlier Action.Before (path.map Point.action) (path'.map Point.action) := by
  simp only [← List.filterMap_eq_map]
  exact h.filterMap _ fun a b hab => ⟨a.action, b.action, rfl, rfl, hab⟩

variable [DecidableEq V] [DecidableEq T] [Name V] [Name T] {input : Input V T}
  {fault : Option (InputFault V T)}

/-- The automaton carries the search to its end, as the search is finite. -/
theorem result (hi : input.Stops word fault) (hready : g.BottomUpReady start) :
    (machine g start).Result input fault Point.Before
      ((search g start word fault).Solves ([], 0))
      (fun path => Action.reductions (path.map Point.action)) := by
  apply Machine.result_of_lawful (lawful hi) (acc_place hready ([], 0))
    (fun _ _ _ => pairwise_options) rfl rfl ?_ rfl fun _ h => h
  intro place path hgoal
  obtain ⟨stack, i⟩ := place
  obtain ⟨rfl, hsight⟩ := search_goal hgoal
  have hlast := Machine.Moves.of_look hi (move_start g start (i + 1) path.reverse) rfl hsight
  exact ⟨_, hlast, congrArg Move.accept (derivation_reverse path)⟩

/-- A parse with any number of moves is that run of the automaton. -/
theorem parse_eq_report (accepted : g.checkBottomUp = .ok start) (source : Source V T) (sink : Sink)
    (moves : Nat) : Strategy.bottomUp.parse g source sink moves =
      (machine g start).report? ⟨source, g.isTerminal⟩ sink moves := by
  simp only [Strategy.parse, Strategy.check, accepted]

/-- On a word of the alphabet, bottom-up parsing comes to a report, and no further moves change it.
It gives a derivation exactly if the word can be derived from the start, and then that of the first
of all accepted runs, which is a right parse; if there is none, it says so. -/
theorem parse_first_run (accepted : g.checkBottomUp = .ok start) (word : List T)
    (alphabet : ∀ t ∈ word, g.isTerminal t) :
    g.start = some start ∧ ∃ moves report,
      (∀ more, Strategy.bottomUp.parse g (.ofList (word.map .terminal)) .silent (moves + more) =
        some report) ∧
      ((∃ list, report.outcome = .ok list) ↔
        g.Derives [.nonterminal start] (word.map .terminal)) ∧
      (∀ list, report.outcome = .ok list →
        (∃ actions, g.Accepts start word actions ∧ list = Action.reductions actions ∧
          ∀ other, g.Accepts start word other →
            other = actions ∨ Earlier Action.Before actions other) ∧
        g.RightParse list [.nonterminal start] (word.map .terminal)) ∧
      (¬ g.Derives [.nonterminal start] (word.map .terminal) →
        report.outcome = .error .noDerivation) := by
  have hready := Grammar.bottomUpReady_of_check accepted
  refine ⟨hready.start_eq, ?_⟩
  simp only [parse_eq_report accepted, Grammar.derives_iff_accepts]
  have hi := Input.stops_ofList (V := V) word alphabet
  obtain ⟨moves, report, hreport, hok, hfirst, hnone⟩ := (result hi hready).report
  have hsome : (∃ actions, g.Accepts start word actions) ↔
      ∃ path, (search g start word none).Solves ([], 0) path := by
    simp only [accepts_iff_solves hready]
    constructor
    · intro h
      obtain ⟨actions, path, hsolves, _⟩ := h
      exact ⟨path, hsolves⟩
    · intro h
      obtain ⟨path, hsolves⟩ := h
      exact ⟨_, path, hsolves, rfl⟩
  rw [hsome]
  refine ⟨moves, report, hreport, hok, ?_, hnone⟩
  intro list hlist
  obtain ⟨path, rfl, hsolves, hleast⟩ := hfirst list hlist
  have haccepts := (accepts_iff_solves hready).mpr ⟨path, hsolves, rfl⟩
  refine ⟨⟨_, haccepts, rfl, ?_⟩, haccepts.rightParse⟩
  intro other hother
  obtain ⟨path', hsolves', rfl⟩ := (accepts_iff_solves hready).mp hother
  rcases hleast path' hsolves' with rfl | hearlier
  · exact .inl rfl
  · exact .inr (action_before hearlier)

/-- Sums without brackets. -/
def sums : Grammar Char Char :=
  .ofRules none [⟨'E', [.nonterminal 'E', .terminal '+', .nonterminal 'E']⟩,
    ⟨'E', [.nonterminal 'V']⟩, ⟨'V', [.terminal 'x']⟩]

/-- The sum `x+x+x` has two accepted runs, as either `+` can be the last one to be reduced. -/
theorem parse_first_run_sums :
    sums.checkBottomUp = .ok 'E' ∧ (∀ t ∈ ['x', '+', 'x', '+', 'x'], sums.isTerminal t) ∧
      ∃ moves report,
        (∀ more, Strategy.bottomUp.parse sums (.ofList (['x', '+', 'x', '+', 'x'].map .terminal))
          .silent (moves + more) = some report) ∧
        ∀ list, report.outcome = .ok list →
          ∃ actions, sums.Accepts 'E' ['x', '+', 'x', '+', 'x'] actions ∧
            list = Action.reductions actions ∧
            ∀ other, sums.Accepts 'E' ['x', '+', 'x', '+', 'x'] other →
              other = actions ∨ Earlier Action.Before actions other := by
  have accepted : sums.checkBottomUp = .ok 'E' := by rfl
  have alphabet : ∀ t ∈ ['x', '+', 'x', '+', 'x'], sums.isTerminal t :=
    List.all_eq_true.mp (by rfl)
  obtain ⟨_, moves, report, hreport, _, hfirst, _⟩ := parse_first_run accepted _ alphabet
  exact ⟨accepted, alphabet, moves, report, hreport, fun list hlist => (hfirst list hlist).1⟩

/-- On every input that ends or has a bad symbol, the automaton of an accepted grammar halts. In
every configuration on its way, the reductions that are possible before the next shift are bounded.
-/
theorem run_halts_bounding_reductions (accepted : g.checkBottomUp = .ok start) (source : Source V T)
    (stops : source.Stops g.isTerminal) (sink : Sink) :
    (∃ moves outcome reader sink',
      (machine g start).run ⟨source, g.isTerminal⟩ moves ((machine g start).start sink) =
        .halted outcome reader sink') ∧
    ∀ moves c reader sink',
      (machine g start).run ⟨source, g.isTerminal⟩ moves ((machine g start).start sink) =
        .running ⟨c, reader, sink'⟩ →
      ∃ bound, ∀ (numbers : List Nat) rest after,
        g.Runs (numbers.map .reduce) (c.symbols.reverse, rest) after → numbers.length ≤ bound := by
  have hready := Grammar.bottomUpReady_of_check accepted
  constructor
  · obtain ⟨word, fault, hi⟩ := Input.exists_stops stops
    obtain ⟨outcome, hhalts⟩ := (result hi hready).halts
    exact hhalts.halted sink
  · intro moves c reader sink' _
    refine ⟨g.weight (c.symbols.reverse, []), ?_⟩
    intro numbers rest after hrun
    exact hrun.reductions_le hready

/-- A sum in which a nonterminal stands for a summand. -/
def unfinishedSum : Source Char Char :=
  .ofList [.terminal 'x', .terminal '+', .nonterminal 'V', .terminal '+', .terminal 'x']

theorem run_halts_bounding_reductions_unfinishedSum :
    sums.checkBottomUp = .ok 'E' ∧ unfinishedSum.Stops sums.isTerminal ∧
      ∃ moves outcome reader sink',
        (machine sums 'E').run ⟨unfinishedSum, sums.isTerminal⟩ moves
          ((machine sums 'E').start (.new none)) = .halted outcome reader sink' := by
  have accepted : sums.checkBottomUp = .ok 'E' := by rfl
  have stops : unfinishedSum.Stops sums.isTerminal := ⟨2, .inr (.inl ⟨'V', rfl⟩)⟩
  exact ⟨accepted, stops, (run_halts_bounding_reductions accepted _ stops _).1⟩

end ContextFree.BottomUp
