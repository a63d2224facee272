import ContextFree.Proofs.Selection

namespace ContextFree

variable {V T : Type}

namespace Grammar

/-- The grammar of some of the productions, which are numbered anew. The start remains. -/
def restrict (g : Grammar V T) (keep : Production V T → Bool) : Grammar V T :=
  { ofRules g.start ((g.productions.filter keep).map Production.toRule) with start := g.start }

/-- The number that a production had before a restriction. -/
def oldNumber (g : Grammar V T) (keep : Production V T → Bool) (number : Nat) : Nat :=
  (((g.productions.filter keep)[number - 1]?).map Production.number).getD 0

/-- A production whose body holds a nonterminal without productions. -/
def IsDead (g : Grammar V T) (p : Production V T) : Prop :=
  ∃ v, .nonterminal v ∈ p.body ∧ ∀ q ∈ g.productions, q.head ≠ v

/-- A string whose nonterminals all have productions. -/
def Grounded (g : Grammar V T) (form : List (Symbol V T)) : Prop :=
  ∀ v, .nonterminal v ∈ form → ∃ p ∈ g.productions, p.head = v

variable {g : Grammar V T} {keep : Production V T → Bool} {p q : Production V T}

section Productions

/-- If only dead productions are deleted, one with a grounded body is kept. -/
theorem Grounded.kept (h : g.Grounded p.body)
    (dead : ∀ p ∈ g.productions, keep p = false → g.IsDead p) (hp : p ∈ g.productions) :
    keep p := by
  by_contra hdeleted
  obtain ⟨v, hv, hnone⟩ := dead p hp (eq_false_of_ne_true hdeleted)
  obtain ⟨q, hq, hhead⟩ := h v hv
  exact hnone q hq hhead

theorem getElem?_restrict (i : Nat) :
    (g.restrict keep).productions[i]? =
      (g.productions.filter keep)[i]?.map fun p => ⟨p.toRule, i + 1⟩ := by
  simp [restrict, ofRules, List.getElem?_mapIdx, Function.comp_def]

theorem oldNumber_eq {i : Nat} (h : (g.productions.filter keep)[i]? = some p) :
    g.oldNumber keep (i + 1) = p.number := by
  rw [oldNumber, Nat.add_sub_cancel, h]
  rfl

/-- Every production that is left was one before, with its old number. -/
theorem exists_of_mem_restrict (h : q ∈ (g.restrict keep).productions) :
    ∃ p ∈ g.productions, p.toRule = q.toRule ∧ g.oldNumber keep q.number = p.number := by
  obtain ⟨i, hi⟩ := List.getElem?_of_mem h
  rw [getElem?_restrict] at hi
  obtain ⟨p, hp, rfl⟩ := Option.map_eq_some_iff.mp hi
  exact ⟨p, (List.mem_filter.mp (List.mem_of_getElem? hp)).1, rfl, oldNumber_eq hp⟩

/-- Every production that is kept is left. -/
theorem exists_mem_restrict (h : p ∈ g.productions) (hkeep : keep p) :
    ∃ q ∈ (g.restrict keep).productions, p.toRule = q.toRule ∧
      g.oldNumber keep q.number = p.number := by
  obtain ⟨i, hi⟩ := List.getElem?_of_mem (List.mem_filter.mpr ⟨h, hkeep⟩)
  have hq : (g.restrict keep).productions[i]? = some ⟨p.toRule, i + 1⟩ := by
    rw [getElem?_restrict, hi]
    rfl
  exact ⟨_, List.mem_of_getElem? hq, rfl, oldNumber_eq hi⟩

/-- The productions that are left keep their order. -/
theorem oldNumber_lt (hp : p ∈ (g.restrict keep).productions)
    (hq : q ∈ (g.restrict keep).productions) (h : p.number < q.number) :
    g.oldNumber keep p.number < g.oldNumber keep q.number := by
  obtain ⟨i, hi⟩ := List.getElem?_of_mem hp
  obtain ⟨j, hj⟩ := List.getElem?_of_mem hq
  rw [getElem?_restrict] at hi hj
  obtain ⟨p', hp', rfl⟩ := Option.map_eq_some_iff.mp hi
  obtain ⟨q', hq', rfl⟩ := Option.map_eq_some_iff.mp hj
  rw [oldNumber_eq hp', oldNumber_eq hq']
  obtain ⟨hbound, rfl⟩ := List.getElem?_eq_some_iff.mp hp'
  obtain ⟨hbound', rfl⟩ := List.getElem?_eq_some_iff.mp hq'
  have hsorted := List.pairwise_iff_getElem.mp (g.pairwise_number.filter keep)
  exact hsorted i j hbound hbound' (Nat.lt_of_succ_lt_succ h)

end Productions

section LeftParses

/-- The numbers of a left parse are those of productions. -/
theorem Parses.exists_of_mem {list : List Nat} {form : List (Symbol V T)} {w : List T}
    (h : g.Parses list form w) : ∀ n ∈ list, ∃ p ∈ g.productions, p.number = n := by
  induction h with
  | nil => exact fun n hn => False.elim (List.not_mem_nil hn)
  | terminal _ _ ih => exact ih
  | nonterminal hp _ ih => exact List.forall_mem_cons.mpr ⟨⟨_, hp, rfl⟩, ih⟩

/-- A word is left parsed from grounded strings only. -/
theorem Parses.grounded {list : List Nat} {form : List (Symbol V T)} {w : List T}
    (h : g.Parses list form w) : g.Grounded form := by
  intro v hv
  induction h with
  | nil => exact False.elim (List.not_mem_nil hv)
  | terminal _ _ ih =>
    rcases List.mem_cons.mp hv with hv | hv
    · cases hv
    · exact ih hv
  | nonterminal hp _ ih =>
    rcases List.mem_cons.mp hv with hv | hv
    · cases hv
      exact ⟨_, hp, rfl⟩
    · exact ih (List.mem_append_right _ hv)

theorem Parses.of_restrict {list : List Nat} {form : List (Symbol V T)} {w : List T}
    (h : (g.restrict keep).Parses list form w) :
    g.Parses (list.map (g.oldNumber keep)) form w := by
  induction h with
  | nil => exact .nil
  | terminal t _ ih => exact .terminal t ih
  | nonterminal hq _ ih =>
    obtain ⟨p, hp, hrule, hnumber⟩ := exists_of_mem_restrict hq
    rw [← hrule] at ih
    rw [List.map_cons, hnumber, ← hrule]
    exact .nonterminal hp ih

/-- If only dead productions are deleted, no left parse of a word is lost. -/
theorem Parses.exists_restrict (dead : ∀ p ∈ g.productions, keep p = false → g.IsDead p)
    {list : List Nat} {form : List (Symbol V T)} {w : List T} (h : g.Parses list form w) :
    ∃ list', (g.restrict keep).Parses list' form w ∧ list'.map (g.oldNumber keep) = list := by
  induction h with
  | nil => exact ⟨[], .nil, rfl⟩
  | terminal t _ ih =>
    obtain ⟨list', hlist', hmap⟩ := ih
    exact ⟨list', .terminal t hlist', hmap⟩
  | @nonterminal list form w p hp hrest ih =>
    obtain ⟨list', hlist', rfl⟩ := ih
    have hbody : g.Grounded p.body := fun v hv => hrest.grounded v (List.mem_append_left _ hv)
    obtain ⟨q, hq, hrule, hnumber⟩ := exists_mem_restrict hp (hbody.kept dead hp)
    rw [hrule] at hlist' ⊢
    refine ⟨q.number :: list', .nonterminal hq hlist', ?_⟩
    rw [List.map_cons, hnumber]

end LeftParses

section Runs

/-- The action that reduced by the same production before a restriction. -/
def oldAction (g : Grammar V T) (keep : Production V T → Bool) : Action → Action
  | .shift => .shift
  | .reduce n => .reduce (g.oldNumber keep n)

theorem reductions_oldAction (actions : List Action) :
    Action.reductions (actions.map (g.oldAction keep)) =
      (Action.reductions actions).map (g.oldNumber keep) := by
  have hnumber : Action.number? ∘ g.oldAction keep =
      fun action => action.number?.map (g.oldNumber keep) := by
    funext action
    cases action <;> rfl
  rw [Action.reductions, Action.reductions, List.filterMap_map, hnumber, List.map_reverse,
    List.map_filterMap]

/-- The numbers of the reductions of a run are those of productions. -/
theorem Runs.exists_of_mem {actions : List Action} {a b : List (Symbol V T) × List T}
    (h : g.Runs actions a b) : ∀ n, .reduce n ∈ actions → ∃ p ∈ g.productions, p.number = n := by
  intro n hn
  induction h with
  | nil => exact False.elim (List.not_mem_nil hn)
  | cons hs _ ih =>
    rcases List.mem_cons.mp hn with rfl | hn
    · cases hs with
      | reduce below rest hp => exact ⟨_, hp, rfl⟩
    · exact ih hn

theorem Acts.of_restrict {action : Action} {a b : List (Symbol V T) × List T}
    (h : (g.restrict keep).Acts action a b) : g.Acts (g.oldAction keep action) a b := by
  cases h with
  | shift stack t rest => exact .shift stack t rest
  | reduce below rest hq =>
    obtain ⟨p, hp, hrule, hnumber⟩ := exists_of_mem_restrict hq
    rw [oldAction, hnumber, ← hrule]
    exact .reduce below rest hp

theorem Runs.of_restrict {actions : List Action} {a b : List (Symbol V T) × List T}
    (h : (g.restrict keep).Runs actions a b) : g.Runs (actions.map (g.oldAction keep)) a b :=
  Steps.map _ id (fun _ _ _ => Acts.of_restrict) h

/-- A grounded stack remains grounded. -/
theorem Acts.grounded {action : Action} {a b : List (Symbol V T) × List T}
    (h : g.Acts action a b) (ha : g.Grounded a.1) : g.Grounded b.1 := by
  intro v hv
  cases h with
  | shift stack t rest =>
    rcases List.mem_append.mp hv with hv | hv
    · exact ha v hv
    · simp at hv
  | @reduce below rest p hp =>
    rcases List.mem_append.mp hv with hv | hv
    · exact ha v (List.mem_append_left _ hv)
    · cases List.mem_singleton.mp hv
      exact ⟨p, hp, rfl⟩

/-- If only dead productions are deleted, every action on a grounded stack remains possible. -/
theorem Acts.exists_restrict (dead : ∀ p ∈ g.productions, keep p = false → g.IsDead p)
    {action : Action} {a b : List (Symbol V T) × List T} (h : g.Acts action a b)
    (ha : g.Grounded a.1) :
    ∃ action', (g.restrict keep).Acts action' a b ∧ g.oldAction keep action' = action := by
  cases h with
  | shift stack t rest => exact ⟨.shift, .shift stack t rest, rfl⟩
  | @reduce below rest p hp =>
    have hbody : g.Grounded p.body := fun v hv => ha v (List.mem_append_right _ hv)
    obtain ⟨q, hq, hrule, hnumber⟩ := exists_mem_restrict hp (hbody.kept dead hp)
    rw [hrule, ← hnumber]
    exact ⟨.reduce q.number, .reduce below rest hq, rfl⟩

theorem Runs.exists_restrict (dead : ∀ p ∈ g.productions, keep p = false → g.IsDead p)
    {actions : List Action} {a b : List (Symbol V T) × List T} (h : g.Runs actions a b)
    (ha : g.Grounded a.1) :
    ∃ actions', (g.restrict keep).Runs actions' a b ∧
      actions'.map (g.oldAction keep) = actions := by
  induction h with
  | nil a => exact ⟨[], .nil a, rfl⟩
  | cons hs _ ih =>
    obtain ⟨action', hs', rfl⟩ := hs.exists_restrict dead ha
    obtain ⟨actions', hrest', rfl⟩ := ih (hs.grounded ha)
    exact ⟨action' :: actions', .cons hs' hrest', rfl⟩

end Runs

section Order

theorem earlier_oldNumber {list list' : List Nat} {form form' : List (Symbol V T)} {w w' : List T}
    (h : (g.restrict keep).Parses list form w) (h' : (g.restrict keep).Parses list' form' w')
    (hearlier : Earlier (· < ·) list list') :
    Earlier (· < ·) (list.map (g.oldNumber keep)) (list'.map (g.oldNumber keep)) := by
  refine hearlier.map_of_mem _ fun m hm n hn hlt => ?_
  obtain ⟨p, hp, rfl⟩ := h.exists_of_mem m hm
  obtain ⟨q, hq, rfl⟩ := h'.exists_of_mem n hn
  exact oldNumber_lt hp hq hlt

theorem earlier_oldAction {actions actions' : List Action}
    {a b a' b' : List (Symbol V T) × List T} (h : (g.restrict keep).Runs actions a b)
    (h' : (g.restrict keep).Runs actions' a' b')
    (hearlier : Earlier Action.Before actions actions') :
    Earlier Action.Before (actions.map (g.oldAction keep)) (actions'.map (g.oldAction keep)) := by
  refine hearlier.map_of_mem _ fun x hx y hy hbefore => ?_
  match x, y with
  | .reduce m, .reduce n =>
    obtain ⟨p, hp, rfl⟩ := h.exists_of_mem m hx
    obtain ⟨q, hq, rfl⟩ := h'.exists_of_mem n hy
    exact oldNumber_lt hp hq hbefore
  | .reduce m, .shift => trivial
  | .shift, _ => exact False.elim hbefore

end Order

end Grammar

/-- Two runs that halt have both come to their reports after some number of moves. -/
theorem Machine.Halts.report_pair {P P' : Type} {m : Machine P V T} {m' : Machine P' V T}
    {input input' : Input V T} {outcome outcome' : Except (ParseError V T) (List Nat)}
    (h : m.Halts input outcome) (h' : m'.Halts input' outcome') :
    ∃ moves report report', report.outcome = outcome ∧ report'.outcome = outcome' ∧
      (∀ more, m.report? input .silent (moves + more) = some report) ∧
      ∀ more, m'.report? input' .silent (moves + more) = some report' := by
  obtain ⟨moves, report, houtcome, hreport⟩ := h.report
  obtain ⟨moves', report', houtcome', hreport'⟩ := h'.report
  refine ⟨moves + moves', report, report', houtcome, houtcome', fun more => ?_, fun more => ?_⟩
  · rw [Nat.add_assoc]
    exact hreport _
  · rw [Nat.add_comm moves, Nat.add_assoc]
    exact hreport' _

section Outcomes

variable [DecidableEq V] [DecidableEq T] [Name V] [Name T] {g : Grammar V T}
  {keep : Production V T → Bool} {start : V} {word : List T}

/-- The left parses of a word are the same with a restriction, and in the same order. -/
theorem TopDown.halts_restrict (hready : g.TopDownReady start)
    (hready' : (g.restrict keep).TopDownReady start)
    (dead : ∀ p ∈ g.productions, keep p = false → g.IsDead p)
    (alphabet : ∀ t ∈ word, g.isTerminal t)
    (alphabet' : ∀ t ∈ word, (g.restrict keep).isTerminal t) :
    ∃ outcome outcome',
      (machine g start).Halts ⟨.ofList (word.map .terminal), g.isTerminal⟩ outcome ∧
      (machine (g.restrict keep) start).Halts
        ⟨.ofList (word.map .terminal), (g.restrict keep).isTerminal⟩ outcome' ∧
      outcome = outcome'.map (List.map (g.oldNumber keep)) := by
  obtain ⟨outcome, hhalts, hselects⟩ := selects hready alphabet
  obtain ⟨outcome', hhalts', hselects'⟩ := selects hready' alphabet'
  refine ⟨outcome, outcome', hhalts, hhalts',
    hselects.map hselects' (fun _ _ => Nat.lt_asymm) ?_ ?_ fun _ => rfl⟩
  · intro list
    simp only [Grammar.leftParse_iff_parses]
    constructor
    · intro h
      exact h.exists_restrict dead
    · intro h
      obtain ⟨list', hlist', rfl⟩ := h
      exact hlist'.of_restrict
  · intro list list' h h' hearlier
    rw [Grammar.leftParse_iff_parses] at h h'
    exact Grammar.earlier_oldNumber h h' hearlier

/-- The accepted runs of a word are the same with a restriction, and in the same order. -/
theorem BottomUp.halts_restrict (hready : g.BottomUpReady start)
    (hready' : (g.restrict keep).BottomUpReady start)
    (dead : ∀ p ∈ g.productions, keep p = false → g.IsDead p)
    (alphabet : ∀ t ∈ word, g.isTerminal t)
    (alphabet' : ∀ t ∈ word, (g.restrict keep).isTerminal t) :
    ∃ outcome outcome',
      (machine g start).Halts ⟨.ofList (word.map .terminal), g.isTerminal⟩ outcome ∧
      (machine (g.restrict keep) start).Halts
        ⟨.ofList (word.map .terminal), (g.restrict keep).isTerminal⟩ outcome' ∧
      outcome = outcome'.map (List.map (g.oldNumber keep)) := by
  obtain ⟨outcome, hhalts, hselects⟩ := selects hready alphabet
  obtain ⟨outcome', hhalts', hselects'⟩ := selects hready' alphabet'
  refine ⟨outcome, outcome', hhalts, hhalts',
    hselects.map hselects' Action.before_asymm ?_ ?_ Grammar.reductions_oldAction⟩
  · intro actions
    have hempty : g.Grounded (([], word) : List (Symbol V T) × List T).1 :=
      fun v hv => False.elim (List.not_mem_nil hv)
    constructor
    · intro h
      exact Grammar.Runs.exists_restrict dead h hempty
    · intro h
      obtain ⟨actions', hactions', rfl⟩ := h
      exact Grammar.Runs.of_restrict hactions'
  · intro actions actions' h h' hearlier
    exact Grammar.earlier_oldAction h h' hearlier

end Outcomes

namespace Strategy

variable [DecidableEq V] [DecidableEq T] [Name V] [Name T] {g : Grammar V T}
  {keep : Production V T → Bool} {start start' : V}

/-- If dead productions are deleted, parsing a word comes to the same outcome, in which the numbers
of the productions are those after the deletion. -/
theorem parse_restrict (strategy : Strategy) (accepted : strategy.check g = .ok start)
    (accepted' : strategy.check (g.restrict keep) = .ok start')
    (dead : ∀ p ∈ g.productions, keep p = false → g.IsDead p) (word : List T)
    (alphabet : ∀ t ∈ word, g.isTerminal t)
    (alphabet' : ∀ t ∈ word, (g.restrict keep).isTerminal t) :
    ∃ moves report report',
      (∀ more, strategy.parse g (.ofList (word.map .terminal)) .silent (moves + more) =
        some report) ∧
      (∀ more, strategy.parse (g.restrict keep) (.ofList (word.map .terminal)) .silent
        (moves + more) = some report') ∧
      report.outcome = report'.outcome.map (List.map (g.oldNumber keep)) := by
  cases strategy with
  | topDown =>
    have hready := Grammar.topDownReady_of_check accepted
    have hready' := Grammar.topDownReady_of_check accepted'
    obtain rfl : start = start' := Option.some.inj (hready.start_eq.symm.trans hready'.start_eq)
    obtain ⟨outcome, outcome', hhalts, hhalts', heq⟩ :=
      TopDown.halts_restrict hready hready' dead alphabet alphabet'
    obtain ⟨moves, report, report', rfl, rfl, hreport, hreport'⟩ := hhalts.report_pair hhalts'
    simp only [TopDown.parse_eq_report accepted, TopDown.parse_eq_report accepted']
    exact ⟨moves, report, report', hreport, hreport', heq⟩
  | bottomUp =>
    have hready := Grammar.bottomUpReady_of_check accepted
    have hready' := Grammar.bottomUpReady_of_check accepted'
    obtain rfl : start = start' := Option.some.inj (hready.start_eq.symm.trans hready'.start_eq)
    obtain ⟨outcome, outcome', hhalts, hhalts', heq⟩ :=
      BottomUp.halts_restrict hready hready' dead alphabet alphabet'
    obtain ⟨moves, report, report', rfl, rfl, hreport, hreport'⟩ := hhalts.report_pair hhalts'
    simp only [BottomUp.parse_eq_report accepted, BottomUp.parse_eq_report accepted']
    exact ⟨moves, report, report', hreport, hreport', heq⟩

/-- Rows of the letter `a` that a `b` ends. No body has productions for `X` and `Y`. -/
def deadEnds : Grammar Char Char :=
  .ofRules none [⟨'S', [.terminal 'a', .nonterminal 'X']⟩,
    ⟨'S', [.terminal 'a', .nonterminal 'S']⟩, ⟨'S', [.nonterminal 'Y', .terminal 'b']⟩,
    ⟨'S', [.terminal 'b']⟩]

def isEven (p : Production Char Char) : Bool :=
  p.number % 2 = 0

/-- Without the dead productions, the second one is the first and the fourth one the second. -/
theorem parse_restrict_deadEnds :
    (∀ strategy : Strategy, strategy.check deadEnds = .ok 'S' ∧
      strategy.check (deadEnds.restrict isEven) = .ok 'S') ∧
    (∀ p ∈ deadEnds.productions, isEven p = false → deadEnds.IsDead p) ∧
    (∀ t ∈ ['a', 'a', 'b'], deadEnds.isTerminal t) ∧
    (∀ t ∈ ['a', 'a', 'b'], (deadEnds.restrict isEven).isTerminal t) ∧
    ∀ strategy : Strategy, ∃ moves report report',
      (∀ more, strategy.parse deadEnds (.ofList (['a', 'a', 'b'].map .terminal)) .silent
        (moves + more) = some report) ∧
      (∀ more, strategy.parse (deadEnds.restrict isEven)
        (.ofList (['a', 'a', 'b'].map .terminal)) .silent (moves + more) = some report') ∧
      report.outcome = report'.outcome.map (List.map (deadEnds.oldNumber isEven)) := by
  have accepted : ∀ strategy : Strategy, strategy.check deadEnds = .ok 'S' ∧
      strategy.check (deadEnds.restrict isEven) = .ok 'S' := by
    intro strategy
    cases strategy <;> exact ⟨rfl, rfl⟩
  have dead : ∀ p ∈ deadEnds.productions, isEven p = false → deadEnds.IsDead p := by
    simp [deadEnds, Grammar.ofRules, isEven, Grammar.IsDead]
  have alphabet : ∀ t ∈ ['a', 'a', 'b'], deadEnds.isTerminal t :=
    List.all_eq_true.mp (by rfl)
  have alphabet' : ∀ t ∈ ['a', 'a', 'b'], (deadEnds.restrict isEven).isTerminal t :=
    List.all_eq_true.mp (by rfl)
  exact ⟨accepted, dead, alphabet, alphabet', fun strategy =>
    parse_restrict strategy (accepted strategy).1 (accepted strategy).2 dead _ alphabet alphabet'⟩

end Strategy

end ContextFree
