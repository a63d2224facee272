import ContextFree.Proofs.Checks
import ContextFree.Proofs.Rewriting

namespace ContextFree

variable {V T : Type}

/-- What a shift-reduce parser does in one step. -/
inductive Action where
  | shift
  /-- A reduction by the production with a number. -/
  | reduce (number : Nat)
  deriving DecidableEq, Repr

namespace Action

/-- The number of the production of a reduction. -/
def number? : Action → Option Nat
  | shift => none
  | reduce n => some n

/-- Reductions are tried before shifts, and those with lower numbers first. -/
def Before : Action → Action → Prop
  | reduce m, reduce n => m < n
  | reduce _, shift => True
  | shift, _ => False

theorem before_asymm (a b : Action) (h : a.Before b) : ¬ b.Before a := by
  cases a <;> cases b <;> simp_all [Before]
  omega

theorem before_trans (a b c : Action) (h : a.Before b) (h' : b.Before c) : a.Before c := by
  cases a <;> cases b <;> cases c <;> simp_all [Before]
  omega

/-- The numbers of the reductions among actions, the latest first. -/
def reductions (actions : List Action) : List Nat :=
  (actions.filterMap number?).reverse

theorem reductions_shift (actions : List Action) :
    reductions (shift :: actions) = reductions actions := rfl

theorem reductions_reduce (n : Nat) (actions : List Action) :
    reductions (reduce n :: actions) = reductions actions ++ [n] := by
  simp [reductions, number?]

end Action

namespace Grammar

/-- One action on a stack, its bottom first, and what is left of the input. -/
inductive Acts (g : Grammar V T) :
    Action → List (Symbol V T) × List T → List (Symbol V T) × List T → Prop
  | shift (stack : List (Symbol V T)) (t : T) (rest : List T) :
      Acts g .shift (stack, t :: rest) (stack ++ [.terminal t], rest)
  | reduce (below : List (Symbol V T)) (rest : List T) {p : Production V T}
      (hp : p ∈ g.productions) :
      Acts g (.reduce p.number) (below ++ p.body, rest) (below ++ [.nonterminal p.head], rest)

/-- Actions made one after the other. -/
def Runs (g : Grammar V T) :
    List Action → List (Symbol V T) × List T → List (Symbol V T) × List T → Prop :=
  Steps g.Acts

/-- The actions of a run that reads a word and leaves nothing but a nonterminal on the stack. -/
def Accepts (g : Grammar V T) (start : V) (word : List T) (actions : List Action) : Prop :=
  g.Runs actions ([], word) ([.nonterminal start], [])

variable {g : Grammar V T}

/-- The reductions of a run, the latest first, rewrite what it comes to into what it began with. -/
theorem Runs.rightParse {actions : List Action} {a b : List (Symbol V T) × List T}
    (h : g.Runs actions a b) :
    g.RightParse (Action.reductions actions) (b.1 ++ b.2.map .terminal)
      (a.1 ++ a.2.map .terminal) := by
  induction h with
  | nil a => exact .nil _
  | cons hs _ ih =>
    cases hs with
    | shift stack t rest => simpa [Action.reductions_shift] using ih
    | @reduce below rest p hp =>
      have hstep : g.RightStep p.number (below ++ [.nonterminal p.head] ++ rest.map .terminal)
          (below ++ p.body ++ rest.map .terminal) :=
        ⟨below, rest, p, hp, rfl, by simp, rfl⟩
      rw [Action.reductions_reduce]
      exact Steps.append ih (.single hstep)

/-- What a string of symbols yields, a run turns back into that string. -/
theorem Yields.runs {form : List (Symbol V T)} {w : List T} (h : g.Yields form w)
    (stack : List (Symbol V T)) (rest : List T) :
    ∃ actions, g.Runs actions (stack, w ++ rest) (stack ++ form, rest) := by
  induction h generalizing stack rest with
  | nil =>
    rw [List.append_nil]
    exact ⟨[], .nil _⟩
  | terminal t _ ih =>
    obtain ⟨actions, hrun⟩ := ih (stack ++ [.terminal t]) rest
    rw [List.append_assoc] at hrun
    exact ⟨_, .cons (.shift stack t _) hrun⟩
  | @nonterminal form x y p hp _ _ ihbody ih =>
    obtain ⟨actions, hrun⟩ := ihbody stack (y ++ rest)
    obtain ⟨actions', hrun'⟩ := ih (stack ++ [.nonterminal p.head]) rest
    rw [List.append_assoc] at hrun' ⊢
    exact ⟨_, Steps.append hrun (.cons (.reduce stack (y ++ rest) hp) hrun')⟩

/-- The reductions of an accepted run are a right parse of the word. -/
theorem Accepts.rightParse {start : V} {word : List T} {actions : List Action}
    (h : g.Accepts start word actions) :
    g.RightParse (Action.reductions actions) [.nonterminal start] (word.map .terminal) :=
  Runs.rightParse h

/-- A word can be derived from a nonterminal exactly if some run accepts it. -/
theorem derives_iff_accepts {start : V} {word : List T} :
    g.Derives [.nonterminal start] (word.map .terminal) ↔
      ∃ actions, g.Accepts start word actions := by
  constructor
  · intro h
    obtain ⟨actions, hrun⟩ := h.yields.runs [] []
    rw [List.append_nil] at hrun
    exact ⟨actions, hrun⟩
  · intro h
    obtain ⟨actions, hrun⟩ := h
    exact hrun.rightParse.derives

section Bound

variable [DecidableEq V]

/-- A nonterminal is the higher the more nodes lead to it along unit productions, and every terminal
is higher still. -/
noncomputable def height (g : Grammar V T) : Symbol V T → Nat
  | .terminal _ => g.unitEdges.keys.toFinset.card + 1
  | .nonterminal v => g.unitEdges.level v

theorem height_le (g : Grammar V T) (s : Symbol V T) :
    g.height s ≤ g.unitEdges.keys.toFinset.card + 1 := by
  cases s with
  | terminal t => exact Nat.le_refl _
  | nonterminal v => exact Nat.le_succ_of_le (Grouping.level_le v)

/-- A bound on the number of actions that are still possible. The height of the top weighs less than
one symbol of the stack, and a symbol of the stack with a top on it less than one of the input. -/
noncomputable def weight (g : Grammar V T) (state : List (Symbol V T) × List T) : Nat :=
  (g.unitEdges.keys.toFinset.card + 2) * (state.1.length + 2 * state.2.length) +
    (state.1.getLast?.map g.height).getD 0

theorem weight_concat (stack : List (Symbol V T)) (s : Symbol V T) (rest : List T) :
    g.weight (stack ++ [s], rest) =
      (g.unitEdges.keys.toFinset.card + 2) * (stack.length + 1 + 2 * rest.length) + g.height s := by
  simp [weight]

variable {start : V}

/-- Every action makes less possible. A reduction by more than one symbol shortens the stack, one by
a terminal or by a nonterminal lowers its top. -/
theorem Acts.weight_lt (hready : g.BottomUpReady start) {action : Action}
    {a b : List (Symbol V T) × List T} (h : g.Acts action a b) : g.weight b < g.weight a := by
  cases h with
  | shift stack t rest =>
    rw [weight_concat]
    have hheight := g.height_le (.terminal t)
    simp only [weight, List.length_cons, Nat.mul_add]
    omega
  | @reduce below rest p hp =>
    rw [weight_concat]
    rcases List.eq_nil_or_concat p.body with hnil | ⟨front, s, hbody⟩
    · exact False.elim (hready.body_ne_nil p hp hnil)
    · rw [List.concat_eq_append] at hbody
      rw [hbody, ← List.append_assoc, weight_concat, List.length_append]
      have hhead : g.height (.nonterminal p.head) < g.unitEdges.keys.toFinset.card + 1 :=
        Nat.lt_succ_of_le (Grouping.level_le p.head)
      cases front with
      | cons r front =>
        simp only [List.length_cons, Nat.mul_add]
        omega
      | nil =>
        have hlower : g.height (.nonterminal p.head) < g.height s := by
          cases s with
          | terminal t => exact hhead
          | nonterminal w =>
            exact Grouping.level_lt hready.unit (successor_unitEdges.mpr ⟨p, hp, rfl, hbody⟩)
        simp only [List.length_nil, Nat.add_zero]
        omega

/-- The weight of a state bounds the length of all runs from it. -/
theorem Runs.length_le (hready : g.BottomUpReady start) {actions : List Action}
    {a b : List (Symbol V T) × List T} (h : g.Runs actions a b) :
    actions.length + g.weight b ≤ g.weight a := by
  induction h with
  | nil a => simp
  | cons hs _ ih =>
    have hlt := hs.weight_lt hready
    rw [List.length_cons]
    omega

omit [DecidableEq V] in
/-- Reductions do not depend on what is left of the input. -/
theorem Runs.without_rest {numbers : List Nat} {a b : List (Symbol V T) × List T}
    (h : g.Runs (numbers.map .reduce) a b) : g.Runs (numbers.map .reduce) (a.1, []) (b.1, []) := by
  induction numbers generalizing a with
  | nil =>
    cases h with
    | nil => exact .nil _
  | cons n numbers ih =>
    cases h with
    | cons hs hrest =>
      cases hs with
      | reduce below rest hp => exact .cons (.reduce below [] hp) (ih hrest)

/-- Only so many reductions are possible one after the other, whatever is left of the input. -/
theorem Runs.reductions_le (hready : g.BottomUpReady start) {numbers : List Nat}
    {a b : List (Symbol V T) × List T} (h : g.Runs (numbers.map .reduce) a b) :
    numbers.length ≤ g.weight (a.1, []) := by
  have hle := h.without_rest.length_le hready
  rw [List.length_map] at hle
  omega

end Bound

end Grammar

end ContextFree
