import ContextFree.Proofs.BottomUp.Undo
import ContextFree.Proofs.TopDown.Undo

namespace ContextFree

variable {V T : Type} [DecidableEq V] [DecidableEq T] [Name V] [Name T]

theorem TopDown.orderly (g : Grammar V T) (start : V) :
    (machine g start).Orderly Point.Sooner where
  irrefl := by
    intro a
    cases a with
    | expand p rank => exact Nat.lt_irrefl rank
    | matched t => exact id
  trans := by
    intro a b c hab hbc
    cases a <;> cases b <;> cases c <;> first | exact Nat.lt_trans hab hbc | contradiction
  initial_mode := rfl
  initial_history := rfl
  proceeds _ _ := proceeds_of_follows

theorem BottomUp.orderly (g : Grammar V T) (start : V) :
    (machine g start).Orderly Point.Before where
  irrefl a h := Action.before_asymm a.action a.action h h
  trans a b c := Action.before_trans a.action b.action c.action
  initial_mode := rfl
  initial_history := rfl
  proceeds _ _ := proceeds_of_follows

/-- On any grammar and any input, and whether it halts or not, no run of either automaton has the
same mode and the same history at two of its steps. Each history is queried at most once and comes
to backtracking mode at most once, after its query and behind all steps that extend it. -/
theorem Strategy.runs_unrepeated (g : Grammar V T) (start : V) (input : Input V T) (sink : Sink) :
    (TopDown.machine g start).Unrepeated input sink ∧
      (BottomUp.machine g start).Unrepeated input sink :=
  ⟨(TopDown.orderly g start).unrepeated input sink,
    (BottomUp.orderly g start).unrepeated input sink⟩

end ContextFree
