import ContextFree.Proofs.BottomUp.Search

namespace ContextFree.BottomUp

variable {V T : Type}

/-- The stack of a place, its bottom first, and what is left of a word there. -/
def state (word : List T) (place : Place V T) : List (Symbol V T) × List T :=
  (place.1.reverse, word.drop place.2)

theorem state_reduced (word : List T) {place : Place V T} {p : Production V T}
    {below : List (Symbol V T)} (h : place.1 = p.body.reverse ++ below) :
    state word (reduced p place) = (below.reverse ++ [.nonterminal p.head], word.drop place.2) := by
  rw [state, reduced, h, ← List.length_reverse, List.drop_left, List.reverse_cons]

variable [DecidableEq V] [DecidableEq T] {g : Grammar V T} {start : V} {word : List T}
  {fault : Option (InputFault V T)} {place child : Place V T}

/-- Every choice is an action on the stack and on what is left of the word. -/
theorem acts_of_leads {a : Point V T} (h : (search g start word fault).Leads a place child) :
    g.Acts a.action (state word place) (state word child) := by
  obtain ⟨options, blocked, hs, hm⟩ := h
  rcases of_search hs with ⟨rfl, _⟩ | ⟨rfl, _⟩
  · rcases mem_choices.mp hm with ⟨p, hp, rfl, rfl⟩ | ⟨t, hword, rfl, rfl⟩
    · obtain ⟨hin, _, below, hstack⟩ := mem_reductions.mp hp
      rw [state_reduced word hstack, state, hstack, List.reverse_append, List.reverse_reverse]
      exact .reduce below.reverse (word.drop place.2) hin
    · rw [state, List.drop_eq_getElem?_toList_append, hword, state, shifted, List.reverse_cons]
      exact .shift place.1.reverse t (word.drop (place.2 + 1))
  · cases hm

/-- On an input without a fault all choices are tried, unless the place is a goal. -/
theorem search_without_fault :
    search g start word none place =
      if place.1 = [.nonterminal start] ∧ word[place.2]? = none then .goal
      else .options (choices g word place) false := by
  have hsight : Input.sight word (none : Option (InputFault V T)) place.2 = some word[place.2]? :=
    Input.sight_eq_some.mpr ⟨.inr rfl, rfl⟩
  rw [search, hsight, Option.isNone_some]
  by_cases hstack : place.1 = [.nonterminal start]
  · cases hword : word[place.2]? with
    | none => rw [if_pos hstack, if_pos ⟨hstack, rfl⟩]
    | some t => rw [if_pos hstack, if_neg (by simp)]
  · rw [if_neg hstack, if_neg fun h => hstack h.1]

theorem state_of_goal (h : search g start word fault place = .goal) :
    state word place = ([.nonterminal start], []) := by
  obtain ⟨hstack, hsight⟩ := search_goal h
  rw [state, hstack, List.drop_eq_nil_of_le (Input.sight_eq_some_none.mp hsight).2]
  rfl

/-- Every action is a choice, unless it comes behind a goal. -/
theorem leads_of_acts (hready : g.BottomUpReady start) {action : Action}
    {next : List (Symbol V T) × List T} (h : g.Acts action (state word place) next)
    (hgoal : search g start word none place ≠ .goal) :
    ∃ a child, (search g start word none).Leads a place child ∧ a.action = action ∧
      state word child = next := by
  have hs : search g start word none place = .options (choices g word place) false := by
    rw [search_without_fault, if_neg]
    intro hend
    rw [search_without_fault, if_pos hend] at hgoal
    exact hgoal rfl
  obtain ⟨stack, i⟩ := place
  generalize hstate : state word (stack, i) = before at h
  cases h with
  | shift below t rest =>
    obtain ⟨rfl, hdrop⟩ := Prod.mk.inj hstate
    have hword : word[i]? = some t := by
      rw [← List.head?_drop, hdrop, List.head?_cons]
    refine ⟨.shift, _, ⟨_, false, hs, mem_choices.mpr (.inr ⟨t, hword, rfl, rfl⟩)⟩, rfl, ?_⟩
    rw [state, shifted, List.reverse_cons, ← List.tail_drop, hdrop, List.tail_cons]
  | @reduce below rest p hp =>
    obtain ⟨hstack, rfl⟩ := Prod.mk.inj hstate
    have hbelow : stack = p.body.reverse ++ below.reverse := by
      rw [← List.reverse_append, ← hstack, List.reverse_reverse]
    have hin : p ∈ reductions g stack :=
      mem_reductions.mpr ⟨hp, hready.body_ne_nil p hp, below.reverse, hbelow⟩
    refine ⟨.reduce p, _, ⟨_, false, hs, mem_choices.mpr (.inl ⟨p, hin, rfl, rfl⟩)⟩, rfl, ?_⟩
    rw [state_reduced word hbelow, List.reverse_reverse]

/-- The bottom-up search below every place is finite. -/
theorem acc_place (hready : g.BottomUpReady start) (place : Place V T) :
    Acc (search g start word fault).Child place := by
  have hlt : ∀ child place, (search g start word fault).Child child place →
      g.weight (state word child) < g.weight (state word place) := by
    intro child place h
    obtain ⟨a, hleads⟩ := h
    exact (acts_of_leads hleads).weight_lt hready
  exact (Subrelation.wf (hlt _ _) (measure fun place => g.weight (state word place)).wf).apply place

/-- A solution of the search is a run to the start and the end of the word. -/
theorem runs_of_solves {path : List (Point V T)}
    (h : (search g start word fault).Solves place path) :
    g.Runs (path.map Point.action) (state word place) ([.nonterminal start], []) := by
  obtain ⟨e, hpath, hgoal⟩ := h
  rw [← state_of_goal hgoal]
  exact Steps.map Point.action (state word) (fun _ _ _ => acts_of_leads) hpath

/-- Every run to the start and the end of the word is a solution of the search, as no run leads from
there back to there. -/
theorem solves_of_runs (hready : g.BottomUpReady start) {actions : List Action}
    {before after : List (Symbol V T) × List T} (h : g.Runs actions before after)
    (hbefore : state word place = before) (hafter : after = ([.nonterminal start], [])) :
    ∃ path, (search g start word none).Solves place path ∧ path.map Point.action = actions := by
  induction h generalizing place with
  | nil a =>
    obtain ⟨hstack, hdrop⟩ := Prod.mk.inj (hbefore.trans hafter)
    have hgoal : search g start word none place = .goal := by
      rw [search_without_fault, if_pos]
      exact ⟨List.reverse_eq_iff.mp hstack, List.getElem?_eq_none (List.drop_eq_nil_iff.mp hdrop)⟩
    exact ⟨[], (Search.solves_goal hgoal []).mpr rfl, rfl⟩
  | @cons action a b c actions hs hrest ih =>
    subst hbefore
    have hgoal : search g start word none place ≠ .goal := by
      intro hgoal
      have hend : state word place = c := (state_of_goal hgoal).trans hafter.symm
      have hle := Grammar.Runs.length_le hready (Steps.cons hs hrest)
      rw [hend, List.length_cons] at hle
      omega
    obtain ⟨a, child, hleads, rfl, hchild⟩ := leads_of_acts hready hs hgoal
    obtain ⟨path, ⟨e, hpath, he⟩, rfl⟩ := ih hchild hafter
    exact ⟨a :: path, ⟨e, .cons hleads hpath, he⟩, rfl⟩

/-- The solutions of the search from the empty stack are the accepted runs. -/
theorem accepts_iff_solves (hready : g.BottomUpReady start) {actions : List Action} :
    g.Accepts start word actions ↔
      ∃ path, (search g start word none).Solves ([], 0) path ∧ path.map Point.action = actions := by
  constructor
  · intro h
    exact solves_of_runs hready h rfl rfl
  · intro h
    obtain ⟨path, hpath, rfl⟩ := h
    exact runs_of_solves hpath

end ContextFree.BottomUp
