import ContextFree.Proofs.BottomUp.Exact
import ContextFree.Proofs.Extent
import ContextFree.Proofs.TopDown.Exact

namespace ContextFree

variable {V T : Type} [DecidableEq V] [DecidableEq T] {g : Grammar V T} {start : V}
  {word : List T} {f : InputFault V T}

namespace TopDown

theorem not_solves_of_fault (place : Place V T) (path : List (Point V T)) :
    ¬ (search g word (some f)).Solves place path := by
  intro h
  obtain ⟨e, _, hgoal⟩ := h
  obtain ⟨i, _, hsight⟩ := goal_place hgoal
  cases (Input.sight_eq_some_none.mp hsight).1

variable [Name V] [Name T] {input : Input V T}

theorem not_halts_ok_of_fault (hready : g.TopDownReady start) (hi : input.Stops word (some f))
    (numbers : List Nat) : ¬ (machine g start).Halts input (.ok numbers) :=
  (result hi hready).not_halts_ok (not_solves_of_fault _) numbers

end TopDown

namespace BottomUp

theorem not_solves_of_fault (place : Place V T) (path : List (Point V T)) :
    ¬ (search g start word (some f)).Solves place path := by
  intro h
  obtain ⟨e, _, hgoal⟩ := h
  cases (Input.sight_eq_some_none.mp (search_goal hgoal).2).1

/-- Shifts lead from every place to the fault. -/
theorem blocks_of_fault (place : Place V T) : (search g start word (some f)).Blocks place := by
  induction hrest : word.length - place.2 generalizing place with
  | zero =>
    have hsight : Input.sight word (some f) place.2 = none :=
      Input.sight_eq_none.mpr ⟨f, rfl, by omega⟩
    by_cases hstack : place.1 = [.nonterminal start]
    · exact ⟨[], place, [], .nil place, by simp only [search, hstack, hsight, if_true]⟩
    · exact ⟨[], place, choices g word place, .nil place, by
        simp only [search, hstack, hsight, if_false, Option.isNone_none]⟩
  | succ n ih =>
    obtain ⟨t, ht⟩ : ∃ t, word[place.2]? = some t := ⟨_, List.getElem?_eq_getElem (by omega)⟩
    have hsight : Input.sight word (some f) place.2 = some (some t) := Input.sight_of_getElem? ht
    have hs : search g start word (some f) place = .options (choices g word place) false := by
      unfold search
      rw [hsight]
      by_cases hstack : place.1 = [.nonterminal start]
      · rw [if_pos hstack]
      · rw [if_neg hstack, Option.isNone_some]
    rw [Search.blocks_options hs]
    refine .inr ⟨.shift, shifted t place, mem_choices.mpr (.inr ⟨t, ht, rfl, rfl⟩), ih _ ?_⟩
    rw [shifted]
    omega

variable [Name V] [Name T] {input : Input V T}

/-- Bottom-up parsing reports the fault of its input. -/
theorem halts_of_fault (hready : g.BottomUpReady start) (hi : input.Stops word (some f)) :
    (machine g start).Halts input (.error (.badInput f)) := by
  obtain ⟨f', hf', hhalts⟩ := Machine.halts_of_blocks (lawful hi) (acc_place hready ([], 0))
    (fun _ _ _ => pairwise_options) rfl rfl (fun _ h => h) (not_solves_of_fault _)
    (blocks_of_fault _)
  cases hf'
  exact hhalts

end BottomUp

end ContextFree
