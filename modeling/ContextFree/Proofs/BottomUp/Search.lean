import ContextFree.BottomUp
import ContextFree.Proofs.Runs
import ContextFree.Proofs.Search
import ContextFree.Proofs.ShiftReduce

namespace ContextFree.BottomUp

open Relation

variable {V T : Type}

/-- The action of a shift-reduce parser that a point records. -/
def Point.action : Point V T → Action
  | shift => .shift
  | reduce p => .reduce p.number

/-- Points are tried in the order of their actions. -/
def Point.Before (a b : Point V T) : Prop :=
  a.action.Before b.action

/-- A stack, its top first, with the number of terminals shifted. -/
abbrev Place (V T : Type) := List (Symbol V T) × Nat

/-- The place behind a reduction. -/
def reduced (p : Production V T) (place : Place V T) : Place V T :=
  (.nonterminal p.head :: place.1.drop p.body.length, place.2)

/-- The place behind a shift. -/
def shifted (t : T) (place : Place V T) : Place V T :=
  (.terminal t :: place.1, place.2 + 1)

variable [DecidableEq V] [DecidableEq T]

section Reductions

variable (g : Grammar V T) (stack : List (Symbol V T))

/-- The productions with a body that is on top of a stack. -/
def reductions : List (Production V T) :=
  g.productions.filter fun p => p.body ≠ [] ∧ p.body.reverse.isPrefixOf stack

theorem pairwise_reductions : (reductions g stack).Pairwise fun p q => p.number < q.number :=
  g.pairwise_number.filter _

variable {g stack}

theorem mem_reductions {p : Production V T} :
    p ∈ reductions g stack ↔
      p ∈ g.productions ∧ p.body ≠ [] ∧ ∃ below, stack = p.body.reverse ++ below := by
  rw [reductions, List.mem_filter, decide_eq_true_iff, List.isPrefixOf_iff_prefix]
  constructor
  · intro h
    obtain ⟨hp, hbody, below, rfl⟩ := h
    exact ⟨hp, hbody, below, rfl⟩
  · intro h
    obtain ⟨hp, hbody, below, rfl⟩ := h
    exact ⟨hp, hbody, below, rfl⟩

omit [DecidableEq V] [DecidableEq T] in
theorem getLast?_eq_some_iff_ne_nil {body rest : List (Symbol V T)} {top : Symbol V T}
    (h : body.reverse <+: top :: rest) : body.getLast? = some top ↔ body ≠ [] := by
  rcases List.eq_nil_or_concat body with rfl | ⟨front, s, rfl⟩
  · simp
  · rw [List.concat_eq_append, List.reverse_concat, List.cons_prefix_cons] at h
    simp [h.1]

/-- The index by last symbols finds the same reductions as a search of all productions. -/
theorem nextReduction_eq_find? (after : Nat) :
    nextReduction (byLast g) stack after =
      (reductions g stack).find? fun p => after < p.number := by
  cases stack with
  | nil =>
    have hnone : reductions g [] = [] := by
      rw [List.eq_nil_iff_forall_not_mem]
      intro p hp
      obtain ⟨_, hbody, below, heq⟩ := mem_reductions.mp hp
      exact hbody (by simpa using (List.append_eq_nil_iff.mp heq.symm).1)
    rw [hnone]
    rfl
  | cons top rest =>
    have hfind : (byLast g).find top =
        g.productions.filter fun p => p.body.getLast? = some top := by
      rw [byLast, Grouping.find_ofList, List.filter_filterMap, List.map_filterMap,
        ← List.filterMap_eq_filter]
      apply List.filterMap_congr
      intro p _
      cases hlast : p.body.getLast? with
      | none => simp [Option.guard, hlast]
      | some s => by_cases hs : s = top <;> simp [Option.guard, Option.filter, hlast, hs]
    rw [nextReduction, hfind, reductions, List.find?_filter, List.find?_filter]
    congr 1
    funext p
    by_cases htop : p.body.reverse.isPrefixOf (top :: rest)
    · simp only [htop, ← getLast?_eq_some_iff_ne_nil (List.isPrefixOf_iff_prefix.mp htop),
        and_true, Bool.and_true, decide_eq_true_eq]
    · simp [htop]

omit [DecidableEq V] [DecidableEq T] in
/-- Behind the first productions of a list, whose numbers are not above a limit, there comes the
first one with a number above it. -/
theorem find?_number {productions : List (Production V T)} {k limit : Nat}
    (hlow : ∀ p ∈ productions.take k, p.number ≤ limit)
    (hhigh : ∀ p ∈ productions.drop k, limit < p.number) :
    (productions.find? fun p => limit < p.number) = productions[k]? := by
  have hnone : ((productions.take k).find? fun p => limit < p.number) = none := by
    rw [List.find?_eq_none]
    intro p hp
    have hle := hlow p hp
    simpa using hle
  rw [← List.take_append_drop k productions, List.find?_append, hnone, Option.none_or,
    List.take_append_drop, ← List.head?_drop]
  cases hdrop : productions.drop k with
  | nil => rfl
  | cons p rest =>
    rw [hdrop] at hhigh
    simp [hhigh p List.mem_cons_self]

/-- In a new configuration the reductions are tried from the first one on. -/
theorem nextReduction_zero : nextReduction (byLast g) stack 0 = (reductions g stack)[0]? := by
  rw [nextReduction_eq_find?]
  apply find?_number
  · intro p hp
    cases hp
  · intro p hp
    exact Grammar.number_pos (mem_reductions.mp hp).1

/-- A reduction that is undone makes way for the next one. -/
theorem nextReduction_number {k : Nat} {p : Production V T}
    (hk : (reductions g stack)[k]? = some p) :
    nextReduction (byLast g) stack p.number = (reductions g stack)[k + 1]? := by
  rw [nextReduction_eq_find?]
  have hsorted := pairwise_reductions g stack
  obtain ⟨hlt, rfl⟩ := List.getElem?_eq_some_iff.mp hk
  rw [List.pairwise_iff_getElem] at hsorted
  apply find?_number
  · intro q hq
    obtain ⟨j, hj, rfl⟩ := List.mem_take_iff_getElem.mp hq
    rcases Nat.lt_or_eq_of_le (Nat.le_of_lt_succ (Nat.lt_of_lt_of_le hj (Nat.min_le_left ..))) with
      hjk | rfl
    · exact Nat.le_of_lt (hsorted j k _ hlt hjk)
    · exact Nat.le_refl _
  · intro q hq
    obtain ⟨j, hj, rfl⟩ := List.mem_drop_iff_getElem.mp hq
    exact hsorted k _ hlt _ (by omega)

end Reductions

/-- The choices at a place: the reductions in the order of their numbers, and then a shift. -/
def choices (g : Grammar V T) (word : List T) (place : Place V T) : List (Point V T × Place V T) :=
  (reductions g place.1).map (fun p => (.reduce p, reduced p place)) ++
    (word[place.2]?.map fun t => (.shift, shifted t place)).toList

/-- The choices at a place, on an input that brings a word and then ends or has a fault. A stack of
just the start is not reduced before the input has been looked at. -/
def search (g : Grammar V T) (start : V) (word : List T) (fault : Option (InputFault V T)) :
    Search (Point V T) (Place V T) := fun place =>
  if place.1 = [.nonterminal start] then
    match Input.sight word fault place.2 with
    | some none => .goal
    | some (some _) => .options (choices g word place) false
    | none => .options [] true
  else .options (choices g word place) (Input.sight word fault place.2).isNone

section Choices

variable {g : Grammar V T} {word : List T} {place child : Place V T} {k : Nat} {a : Point V T}

theorem choices_of_reductions {p : Production V T} (h : (reductions g place.1)[k]? = some p) :
    (choices g word place)[k]? = some (.reduce p, reduced p place) := by
  obtain ⟨hlt, rfl⟩ := List.getElem?_eq_some_iff.mp h
  rw [choices, List.getElem?_append_left (by simpa using hlt), List.getElem?_map, h]
  rfl

theorem choices_length :
    (choices g word place)[(reductions g place.1).length]? =
      word[place.2]?.map fun t => (.shift, shifted t place) := by
  rw [choices, List.getElem?_append_right (by simp), List.length_map, Nat.sub_self]
  cases word[place.2]? <;> rfl

theorem choices_succ_length :
    (choices g word place)[(reductions g place.1).length + 1]? = none := by
  rw [List.getElem?_eq_none_iff, choices, List.length_append, List.length_map]
  cases word[place.2]? <;> simp

/-- A choice is a reduction, or it is the last one and a shift. -/
theorem of_choices (h : (choices g word place)[k]? = some (a, child)) :
    (∃ p, (reductions g place.1)[k]? = some p ∧ a = .reduce p ∧ child = reduced p place) ∨
      k = (reductions g place.1).length ∧
        ∃ t, word[place.2]? = some t ∧ a = .shift ∧ child = shifted t place := by
  rcases Nat.lt_trichotomy k (reductions g place.1).length with hlt | rfl | hlt
  · have hp := List.getElem?_eq_getElem hlt
    rw [choices_of_reductions hp] at h
    cases h
    exact .inl ⟨_, hp, rfl, rfl⟩
  · rw [choices_length] at h
    obtain ⟨t, ht, heq⟩ := Option.map_eq_some_iff.mp h
    cases heq
    exact .inr ⟨rfl, t, ht, rfl, rfl⟩
  · rw [List.getElem?_eq_none_iff.mpr] at h
    · cases h
    · have hnone : (choices g word place)[(reductions g place.1).length + 1]? = none :=
        choices_succ_length
      rw [List.getElem?_eq_none_iff] at hnone
      omega

theorem mem_choices :
    (a, child) ∈ choices g word place ↔
      (∃ p ∈ reductions g place.1, a = .reduce p ∧ child = reduced p place) ∨
        ∃ t, word[place.2]? = some t ∧ a = .shift ∧ child = shifted t place := by
  rw [choices, List.mem_append, List.mem_map, Option.mem_toList, Option.map_eq_some_iff]
  simp only [Prod.mk.injEq, eq_comm]

theorem pairwise_choices : (choices g word place).Pairwise fun x y => x.1.Before y.1 := by
  rw [choices, List.pairwise_append]
  refine ⟨?_, ?_, ?_⟩
  · rw [List.pairwise_map]
    exact pairwise_reductions g place.1
  · cases word[place.2]? with
    | none => exact .nil
    | some t => exact List.pairwise_singleton ..
  · intro x hx y hy
    obtain ⟨p, _, rfl⟩ := List.mem_map.mp hx
    obtain ⟨t, _, rfl⟩ := Option.map_eq_some_iff.mp (Option.mem_toList.mp hy)
    trivial

variable {start : V} {fault : Option (InputFault V T)}

/-- What is tried at a place are its choices, unless nothing is tried before a fault. -/
theorem of_search {options : List (Point V T × Place V T)} {blocked : Bool}
    (h : search g start word fault place = .options options blocked) :
    options = choices g word place ∧ blocked = (Input.sight word fault place.2).isNone ∨
      options = [] ∧ blocked = true := by
  unfold search at h
  split at h
  · split at h
    · cases h
    · rename_i hsight
      cases h
      exact .inl ⟨rfl, by rw [hsight, Option.isNone_some]⟩
    · cases h
      exact .inr ⟨rfl, rfl⟩
  · cases h
    exact .inl ⟨rfl, rfl⟩

theorem pairwise_options {options : List (Point V T × Place V T)} {blocked : Bool}
    (h : search g start word fault place = .options options blocked) :
    options.Pairwise fun x y => x.1.Before y.1 := by
  rcases of_search h with ⟨rfl, _⟩ | ⟨rfl, _⟩
  · exact pairwise_choices
  · exact .nil

theorem search_goal (h : search g start word fault place = .goal) :
    place.1 = [.nonterminal start] ∧ Input.sight word fault place.2 = some none := by
  unfold search at h
  split at h
  · rename_i hstack
    split at h
    · exact ⟨hstack, by assumption⟩
    · cases h
    · cases h
  · cases h

end Choices

variable [Name V] [Name T]

/-- The automaton on an input that brings a word and then ends or has a fault. -/
def backtracker (g : Grammar V T) (start : V) (input : Input V T) (word : List T)
    (fault : Option (InputFault V T)) : Backtracker (Point V T) (Place V T) (Config V T) where
  search := search g start word fault
  step := (machine g start).Moves input
  breaks c := ∃ f, fault = some f ∧ (machine g start).Breaks input f c
  enter place history := ⟨.querying, place.2 + 1, history, place.1⟩
  leave place history := ⟨.backtracking, place.2 + 1, history, place.1⟩

/-- Goes on with a reduction, or with a shift if there is none. -/
def proceed (c : Config V T) (history : List (Point V T)) (stack : List (Symbol V T)) :
    Option (Production V T) → Move (Point V T) V T
  | some p => .enter (reduce c p history stack)
  | none => .look (shiftOrUndo c history stack)

section Moves

variable (g : Grammar V T) (start : V) (cursor : Nat) (history : List (Point V T))
  (stack : List (Symbol V T))

theorem move_start :
    (machine g start).move ⟨.querying, cursor, history, [.nonterminal start]⟩ =
      .look fun seen =>
        match seen, (reductions g [.nonterminal start])[0]? with
        | none, _ => ⟨.accepting, cursor, history, [.nonterminal start]⟩
        | some _, some p =>
          reduce ⟨.querying, cursor, history, [.nonterminal start]⟩ p history [.nonterminal start]
        | some t, none =>
          shift ⟨.querying, cursor, history, [.nonterminal start]⟩ t history
            [.nonterminal start] := by
  rw [← nextReduction_zero]
  exact if_pos rfl

theorem move_query (hstack : stack ≠ [.nonterminal start]) :
    (machine g start).move ⟨.querying, cursor, history, stack⟩ =
      proceed ⟨.querying, cursor, history, stack⟩ history stack (reductions g stack)[0]? := by
  rw [← nextReduction_zero]
  refine (if_neg hstack).trans ?_
  cases nextReduction (byLast g) stack 0 with
  | none => rfl
  | some p => rfl

theorem move_shifted (t : T) :
    (machine g start).move ⟨.backtracking, cursor + 1, .shift :: history, .terminal t :: stack⟩ =
      .enter ⟨.backtracking, cursor, history, stack⟩ := rfl

/-- A reduction that is undone makes way for the next one, and the last one for a shift. -/
theorem move_reduced {p : Production V T} {k : Nat} (hk : (reductions g stack)[k]? = some p) :
    (machine g start).move ⟨.backtracking, cursor, .reduce p :: history,
        .nonterminal p.head :: stack.drop p.body.length⟩ =
      proceed ⟨.backtracking, cursor, .reduce p :: history,
        .nonterminal p.head :: stack.drop p.body.length⟩ history stack
        (reductions g stack)[k + 1]? := by
  obtain ⟨_, _, below, hstack⟩ := mem_reductions.mp (List.mem_of_getElem? hk)
  have hundo : p.body.reverse ++ stack.drop p.body.length = stack := by
    rw [hstack, ← List.length_reverse, List.drop_left]
  simp only [machine, move, backtrack, List.tail_cons, hundo, nextReduction_number hk]
  cases (reductions g stack)[k + 1]? with
  | none => rfl
  | some q => rfl

end Moves

variable {g : Grammar V T} {start : V} {input : Input V T} {word : List T}
  {fault : Option (InputFault V T)}

/-- Where the automaton goes on with the next reduction, or with a shift behind the last one, it
makes the choices of the search. -/
theorem turns_of_move (hi : input.Stops word fault) {c : Config V T} {place : Place V T}
    {history : List (Point V T)} {k : Nat} (hcursor : c.cursor = place.2 + 1)
    (hk : k ≤ (reductions g place.1).length)
    (hmove : (machine g start).move c =
      proceed c history place.1 (reductions g place.1)[k]?) :
    (backtracker g start input word fault).Turns c place history
      (Input.sight word fault place.2).isNone (choices g word place)[k]? := by
  obtain ⟨mode, cursor, points, symbols⟩ := c
  subst hcursor
  cases hp : (reductions g place.1)[k]? with
  | some p =>
    rw [hp] at hmove
    rw [choices_of_reductions hp]
    exact Machine.Moves.of_enter hmove
  | none =>
    rw [hp] at hmove
    have hlength : k = (reductions g place.1).length :=
      Nat.le_antisymm hk (List.getElem?_eq_none_iff.mp hp)
    rw [hlength, choices_length]
    cases hsight : Input.sight word fault place.2 with
    | none =>
      obtain ⟨_, _, hle⟩ := Input.sight_eq_none.mp hsight
      rw [List.getElem?_eq_none hle]
      exact Machine.Breaks.of_look hi hmove rfl hsight
    | some seen =>
      rw [(Input.sight_eq_some.mp hsight).2]
      have hlook := Machine.Moves.of_look hi hmove rfl hsight
      cases seen with
      | none => exact hlook
      | some t => exact hlook

/-- The automaton makes and undoes its choices in the order of the search. -/
theorem lawful (hi : input.Stops word fault) : (backtracker g start input word fault).Lawful where
  begins := by
    intro place history options blocked hs
    obtain ⟨stack, i⟩ := place
    simp only [backtracker, search] at hs
    split at hs
    · rename_i hstack
      subst hstack
      have hmove := move_start g start (i + 1) history
      split at hs
      · cases hs
      · rename_i t hsight
        cases hs
        have hlook := Machine.Moves.of_look hi hmove rfl hsight
        have hword : word[i]? = some t := (Input.sight_eq_some.mp hsight).2
        cases hp : (reductions g [.nonterminal start])[0]? with
        | some p =>
          rw [hp] at hlook
          rw [choices_of_reductions hp]
          exact hlook
        | none =>
          rw [hp] at hlook
          have hlength : (reductions g [.nonterminal start]).length = 0 :=
            Nat.le_zero.mp (List.getElem?_eq_none_iff.mp hp)
          have hshift : (choices g word ([.nonterminal start], i))[0]? =
              some (.shift, shifted t ([.nonterminal start], i)) := by
            rw [← hlength, choices_length, hword]
            rfl
          rw [hshift]
          exact hlook
      · rename_i hsight
        cases hs
        exact Machine.Breaks.of_look hi hmove rfl hsight
    · rename_i hstack
      cases hs
      exact turns_of_move hi rfl (Nat.zero_le _) (move_query g start (i + 1) history stack hstack)
  resumes := by
    intro place history options blocked k a child hs hk
    obtain ⟨rfl, rfl⟩ := (of_search hs).resolve_right fun ⟨hnil, _⟩ => by simp [hnil] at hk
    obtain ⟨stack, i⟩ := place
    rcases of_choices hk with ⟨p, hp, rfl, rfl⟩ | ⟨rfl, t, hword, rfl, rfl⟩
    · exact turns_of_move hi rfl (List.getElem?_eq_some_iff.mp hp).1
        (move_reduced g start (i + 1) history stack hp)
    · rw [choices_succ_length, Input.sight_of_getElem? hword]
      exact Machine.Moves.of_enter (move_shifted g start (i + 1) history stack t)

end ContextFree.BottomUp
