import ContextFree.Proofs.Rewriting
import ContextFree.Proofs.Runs
import ContextFree.Proofs.Search
import ContextFree.TopDown

namespace ContextFree.TopDown

open Relation

variable {V T : Type}

/-- Of two expansions the one with the lower number is tried first. -/
def Point.Before : Point V T → Point V T → Prop
  | expand p _, expand q _ => p.number < q.number
  | _, _ => False

theorem number_of_before (a b : Point V T) (h : a.Before b) :
    ∃ m n, a.number? = some m ∧ b.number? = some n ∧ m < n := by
  cases a with
  | matched t => cases h
  | expand p rank =>
    cases b with
    | matched t => cases h
    | expand q rank' => exact ⟨p.number, q.number, rfl, rfl, h⟩

/-- A frontier with the number of terminals matched. -/
abbrev Place (V T : Type) := List (Symbol V T) × Nat

variable [DecidableEq V] [DecidableEq T]

/-- The choices at a place, on an input that brings a word and then ends or has a fault. -/
def search (g : Grammar V T) (word : List T) (fault : Option (InputFault V T)) :
    Search (Point V T) (Place V T)
  | ([], i) =>
    match Input.sight word fault i with
    | some none => .goal
    | some (some _) => .options [] false
    | none => .options [] true
  | (.terminal t :: rest, i) =>
    match Input.sight word fault i with
    | some seen =>
      .options (if seen = some t then [(.matched t, (rest, i + 1))] else []) false
    | none => .options [] true
  | (.nonterminal v :: rest, i) =>
    .options ((g.alternatives v).mapIdx fun rank p => (.expand p rank, (p.body ++ rest, i))) false

section Choices

variable {g : Grammar V T} {word : List T} {fault : Option (InputFault V T)} {i : Nat}
  {rest : List (Symbol V T)} {a : Point V T} {place : Place V T}

theorem not_leads_nil : ¬ (search g word fault).Leads a ([], i) place := by
  intro h
  obtain ⟨choices, blocked, hs, hm⟩ := h
  simp only [search] at hs
  split at hs <;> cases hs <;> cases hm

theorem leads_terminal {t : T} :
    (search g word fault).Leads a (.terminal t :: rest, i) place ↔
      word[i]? = some t ∧ a = .matched t ∧ place = (rest, i + 1) := by
  constructor
  · intro h
    obtain ⟨choices, blocked, hs, hm⟩ := h
    simp only [search] at hs
    split at hs
    · rename_i seen hsight
      cases hs
      split at hm
      · rename_i hseen
        cases List.mem_singleton.mp hm
        exact ⟨(Input.sight_eq_some.mp hsight).2.trans hseen, rfl, rfl⟩
      · cases hm
    · cases hs
      cases hm
  · intro h
    obtain ⟨hword, rfl, rfl⟩ := h
    refine ⟨[(.matched t, (rest, i + 1))], false, ?_, List.mem_singleton_self _⟩
    simp only [search, Input.sight_of_getElem? hword, if_true]

theorem leads_nonterminal {v : V} :
    (search g word fault).Leads a (.nonterminal v :: rest, i) place ↔
      ∃ rank p, (g.alternatives v)[rank]? = some p ∧ a = .expand p rank ∧
        place = (p.body ++ rest, i) := by
  constructor
  · intro h
    obtain ⟨choices, blocked, hs, hm⟩ := h
    cases hs
    obtain ⟨rank, hrank, heq⟩ := List.mem_mapIdx.mp hm
    cases heq
    exact ⟨rank, _, List.getElem?_eq_getElem hrank, rfl, rfl⟩
  · intro h
    obtain ⟨rank, p, hp, rfl, rfl⟩ := h
    refine ⟨_, _, rfl, ?_⟩
    apply List.mem_of_getElem? (i := rank)
    rw [List.getElem?_mapIdx, hp]
    rfl

/-- The next terminal of a word can be matched. -/
theorem leads_of_drop {t : T} {w : List T} (h : word.drop i = t :: w) :
    (search g word fault).Leads (.matched t) (.terminal t :: rest, i) (rest, i + 1) := by
  refine leads_terminal.mpr ⟨?_, rfl, rfl⟩
  rw [← List.head?_drop, h, List.head?_cons]

/-- A nonterminal can be replaced by each of its bodies. -/
theorem exists_leads {p : Production V T} (hp : p ∈ g.productions) :
    ∃ rank, (search g word fault).Leads (.expand p rank) (.nonterminal p.head :: rest, i)
      (p.body ++ rest, i) := by
  obtain ⟨rank, hrank⟩ := List.getElem?_of_mem (Grammar.mem_alternatives.mpr ⟨hp, rfl⟩)
  exact ⟨rank, leads_nonterminal.mpr ⟨rank, p, hrank, rfl, rfl⟩⟩

theorem pairwise_choices (n : Place V T) (choices : List (Point V T × Place V T)) (blocked : Bool)
    (hn : search g word fault n = .options choices blocked) :
    choices.Pairwise fun x y => x.1.Before y.1 := by
  match n with
  | ([], i) =>
    simp only [search] at hn
    split at hn <;> cases hn <;> exact .nil
  | (.terminal t :: rest, i) =>
    simp only [search] at hn
    split at hn
    · cases hn
      split
      · exact List.pairwise_singleton ..
      · exact .nil
    · cases hn
      exact .nil
  | (.nonterminal v :: rest, i) =>
    cases hn
    have hsorted := g.pairwise_alternatives v
    rw [List.pairwise_iff_getElem] at hsorted ⊢
    intro j k hj hk hlt
    rw [List.getElem_mapIdx, List.getElem_mapIdx]
    exact hsorted j k (by simpa using hj) (by simpa using hk) hlt

end Choices

variable [Name V] [Name T]

/-- The automaton on an input that brings a word and then ends or has a fault. -/
def backtracker (g : Grammar V T) (start : V) (input : Input V T) (word : List T)
    (fault : Option (InputFault V T)) : Backtracker (Point V T) (Place V T) (Config V T) where
  search := search g word fault
  step := (machine g start).Moves input
  breaks c := ∃ f, fault = some f ∧ (machine g start).Breaks input f c
  enter place history := ⟨.querying, place.2 + 1, history, place.1⟩
  leave place history := ⟨.backtracking, place.2 + 1, history, place.1⟩

section Moves

variable (g : Grammar V T) (start : V) (cursor : Nat) (history : List (Point V T))
  (rest : List (Symbol V T))

theorem move_nil :
    (machine g start).move ⟨.querying, cursor, history, []⟩ =
      .look (finish ⟨.querying, cursor, history, []⟩) := rfl

theorem move_terminal (t : T) :
    (machine g start).move ⟨.querying, cursor, history, .terminal t :: rest⟩ =
      .look (matchFront ⟨.querying, cursor, history, .terminal t :: rest⟩ t rest) := rfl

theorem move_nonterminal (v : V) :
    (machine g start).move ⟨.querying, cursor, history, .nonterminal v :: rest⟩ =
      match (g.alternatives v)[0]? with
      | some p => .enter ⟨.querying, cursor, .expand p 0 :: history, p.body ++ rest⟩
      | none => .enter ⟨.backtracking, cursor, history, .nonterminal v :: rest⟩ := rfl

theorem move_matched (t : T) :
    (machine g start).move ⟨.backtracking, cursor + 1, .matched t :: history, rest⟩ =
      .enter ⟨.backtracking, cursor, history, .terminal t :: rest⟩ := rfl

/-- An expansion that is undone makes way for the next alternative of its head. -/
theorem move_expanded (p : Production V T) (rank : Nat) :
    (machine g start).move ⟨.backtracking, cursor, .expand p rank :: history, p.body ++ rest⟩ =
      match (g.alternatives p.head)[rank + 1]? with
      | some q => .enter ⟨.querying, cursor, .expand q (rank + 1) :: history, q.body ++ rest⟩
      | none => .enter ⟨.backtracking, cursor, history, .nonterminal p.head :: rest⟩ := by
  simp only [machine, move, backtrack, List.drop_left]
  rfl

end Moves

variable {g : Grammar V T} {start : V} {input : Input V T} {word : List T}
  {fault : Option (InputFault V T)}

/-- The automaton makes and undoes its choices in the order of the search. -/
theorem lawful (hi : input.Stops word fault) : (backtracker g start input word fault).Lawful where
  begins := by
    intro place history choices blocked hs
    match place with
    | ([], i) =>
      simp only [backtracker, search] at hs
      split at hs
      · cases hs
      · rename_i t hsight
        cases hs
        exact Machine.Moves.of_look hi (move_nil g start (i + 1) history) rfl hsight
      · rename_i hsight
        cases hs
        exact Machine.Breaks.of_look hi (move_nil g start (i + 1) history) rfl hsight
    | (.terminal t :: rest, i) =>
      simp only [backtracker, search] at hs
      split at hs
      · rename_i seen hsight
        cases hs
        have hlook := move_terminal g start (i + 1) history rest t
        have hmove := Machine.Moves.of_look hi hlook rfl hsight
        by_cases hseen : seen = some t
        · simpa [Backtracker.Turns, backtracker, matchFront, hseen] using hmove
        · simpa [Backtracker.Turns, backtracker, matchFront, hseen] using hmove
      · rename_i hsight
        cases hs
        exact Machine.Breaks.of_look hi (move_terminal g start (i + 1) history rest t) rfl hsight
    | (.nonterminal v :: rest, i) =>
      cases hs
      have hmove := move_nonterminal g start (i + 1) history rest v
      rw [List.getElem?_mapIdx]
      cases hfirst : (g.alternatives v)[0]? with
      | none =>
        rw [hfirst] at hmove
        exact Machine.Moves.of_enter hmove
      | some p =>
        rw [hfirst] at hmove
        exact Machine.Moves.of_enter hmove
  resumes := by
    intro place history choices blocked k a child hs hk
    have hleads : (search g word fault).Leads a place child :=
      ⟨choices, blocked, hs, List.mem_of_getElem? hk⟩
    match place with
    | ([], i) => exact False.elim (not_leads_nil hleads)
    | (.terminal t :: rest, i) =>
      obtain ⟨hword, rfl, rfl⟩ := leads_terminal.mp hleads
      have hsight : Input.sight word fault i = some (some t) := Input.sight_of_getElem? hword
      simp only [backtracker, search, hsight, if_true, Outlook.options.injEq] at hs
      obtain ⟨rfl, rfl⟩ := hs
      rw [List.getElem?_eq_none (by simp)]
      exact Machine.Moves.of_enter (move_matched g start (i + 1) history rest t)
    | (.nonterminal v :: rest, i) =>
      cases hs
      rw [List.getElem?_mapIdx] at hk ⊢
      obtain ⟨p, hp, heq⟩ := Option.map_eq_some_iff.mp hk
      cases heq
      obtain ⟨_, rfl⟩ := Grammar.mem_alternatives.mp (List.mem_of_getElem? hp)
      have hmove := move_expanded g start (i + 1) history rest p k
      cases hnext : (g.alternatives p.head)[k + 1]? with
      | none =>
        rw [hnext] at hmove
        exact Machine.Moves.of_enter hmove
      | some q =>
        rw [hnext] at hmove
        exact Machine.Moves.of_enter hmove

end ContextFree.TopDown
