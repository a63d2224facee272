import ContextFree.Proofs.BottomUp.Exact
import ContextFree.Proofs.BottomUp.Exhaustion
import ContextFree.Proofs.DepthFirst

namespace ContextFree.BottomUp

variable {V T : Type} [DecidableEq V] [DecidableEq T]

/-- The stack that the choices of a history lead to. A shift pushes the terminal that the input
answers next, and a reduction puts its head in the place of a body on top. -/
inductive Replays (g : Grammar V T) (input : Input V T) :
    List (Point V T) → List (Symbol V T) → Prop
  | start : Replays g input [] []
  | shift {older : List (Point V T)} {stack : List (Symbol V T)} {t : T}
      (hanswer : input.answer (shifts older) = some (.ok t)) (h : Replays g input older stack) :
      Replays g input (.shift :: older) (.terminal t :: stack)
  | reduce {older : List (Point V T)} {stack : List (Symbol V T)} {p : Production V T}
      (hp : p ∈ reductions g stack) (h : Replays g input older stack) :
      Replays g input (.reduce p :: older) (.nonterminal p.head :: stack.drop p.body.length)

section Replays

variable {g : Grammar V T} {input : Input V T} {history older : List (Point V T)}
  {stack stack' : List (Symbol V T)} {p : Production V T}

/-- A history determines the stack. -/
theorem Replays.unique (h : Replays g input history stack)
    (h' : Replays g input history stack') : stack = stack' := by
  induction h generalizing stack' with
  | start =>
    cases h' with
    | start => rfl
  | shift hanswer _ ih =>
    cases h' with
    | shift hanswer' h' =>
      cases hanswer.symm.trans hanswer'
      rw [ih h']
  | reduce _ _ ih =>
    cases h' with
    | reduce _ h' => rw [ih h']

/-- The terminal that was shifted last is on top. -/
theorem Replays.of_shift (h : Replays g input (.shift :: older) stack) :
    ∃ t below, stack = .terminal t :: below ∧ input.answer (shifts older) = some (.ok t) ∧
      Replays g input older below := by
  cases h with
  | shift hanswer h => exact ⟨_, _, rfl, hanswer, h⟩

/-- The head of the latest reduction is on top, where its body was before. -/
theorem Replays.of_reduce (h : Replays g input (.reduce p :: older) stack) :
    ∃ below, stack = .nonterminal p.head :: below ∧ p ∈ reductions g (p.body.reverse ++ below) ∧
      Replays g input older (p.body.reverse ++ below) := by
  cases h with
  | reduce hp h =>
    obtain ⟨_, _, below, rfl⟩ := mem_reductions.mp hp
    refine ⟨below, ?_, hp, h⟩
    rw [← List.length_reverse, List.drop_left]

theorem Replays.mem_productions (h : Replays g input history stack)
    (hmem : .reduce p ∈ history) : p ∈ g.productions := by
  induction h with
  | start => cases hmem
  | shift _ _ ih =>
    rcases List.mem_cons.mp hmem with heq | hmem
    · cases heq
    · exact ih hmem
  | reduce hp _ ih =>
    rcases List.mem_cons.mp hmem with heq | hmem
    · cases heq
      exact (mem_reductions.mp hp).1
    · exact ih hmem

/-- The choices of a history are a run from the empty stack over the first terminals of the input,
whatever comes behind them. -/
theorem Replays.runs (h : Replays g input history stack) :
    ∃ word, word.length = shifts history ∧ input.source.Begins input.isTerminal word ∧
      ∀ rest,
        g.Runs (history.reverse.map Point.action) ([], word ++ rest) (stack.reverse, rest) := by
  induction h with
  | start => exact ⟨[], rfl, by simp [Source.Begins], fun rest => .nil _⟩
  | @shift older stack t hanswer _ ih =>
    obtain ⟨word, hlength, hbegins, hruns⟩ := ih
    rw [← hlength] at hanswer
    refine ⟨word ++ [t], by simp [shifts_shift, hlength], hbegins.concat hanswer, ?_⟩
    intro rest
    have hshift := Grammar.Acts.shift (g := g) stack.reverse t rest
    rw [List.append_assoc, List.reverse_cons, List.reverse_cons, List.map_append]
    exact Steps.append (hruns (t :: rest)) (.single hshift)
  | @reduce older stack p hp _ ih =>
    obtain ⟨word, hlength, hbegins, hruns⟩ := ih
    obtain ⟨hin, _, below, rfl⟩ := mem_reductions.mp hp
    refine ⟨word, by rw [hlength, shifts_reduce], hbegins, ?_⟩
    intro rest
    have hrun := hruns rest
    have hreduce := Grammar.Acts.reduce below.reverse rest hin
    rw [List.reverse_append, List.reverse_reverse] at hrun
    rw [← List.length_reverse, List.drop_left, List.reverse_cons, List.reverse_cons,
      List.map_append]
    exact Steps.append hrun (.single hreduce)

end Replays

/-- The history of a configuration accounts for its stack and for its cursor. -/
structure Accounted (g : Grammar V T) (input : Input V T) (c : Config V T) : Prop where
  replays : Replays g input c.history c.symbols
  cursor : c.cursor = shifts c.history + 1

/-- The history and the stack for which a configuration makes a choice, which is to come behind the
reduction with a number. They are its own, or those behind the reduction that it undoes. -/
inductive Resumes (c : Config V T) : List (Point V T) → List (Symbol V T) → Nat → Prop
  | new (hmode : c.mode = .querying) : Resumes c c.history c.symbols 0
  | undone {p : Production V T} {older : List (Point V T)} (hmode : c.mode = .backtracking)
      (hhistory : c.history = .reduce p :: older) :
      Resumes c older (p.body.reverse ++ c.symbols.tail) p.number

section Resumes

omit [DecidableEq V] [DecidableEq T]

variable {c d : Config V T} {older : List (Point V T)} {stack : List (Symbol V T)} {after : Nat}

/-- A choice for a place is the first one there, or it comes behind the one that is undone. -/
theorem Resumes.proceeds (h : Resumes c older stack after) {a : Point V T}
    (hmode : d.mode = .querying) (hhistory : d.history = a :: older)
    (hbehind : ∀ p : Production V T, p.number = after → (Point.reduce p).Before a) :
    Proceeds Point.Before c d := by
  cases h with
  | new hmode' => exact .choose hmode' hmode hhistory
  | undone hmode' hhistory' => exact .replace (hbehind _ rfl) hmode' hmode hhistory' hhistory

theorem Resumes.proceeds_undo (h : Resumes c older stack after) (hmode : d.mode = .backtracking)
    (hhistory : d.history = older) : Proceeds Point.Before c d := by
  cases h with
  | new hmode' => exact .settle hmode' (by simp [hmode]) hhistory
  | undone hmode' hhistory' => exact .undo hmode' hmode (hhistory ▸ hhistory')

end Resumes

/-- All that a move can be, with the place that its choice is made for. -/
inductive Turn (g : Grammar V T) (c : Config V T) : Move (Point V T) V T → Prop
  | reduce {older : List (Point V T)} {stack : List (Symbol V T)} {after : Nat} {p : Production V T}
      (hresumes : Resumes c older stack after)
      (hnext : nextReduction (byLast g) stack after = some p) :
      Turn g c (.enter (reduce c p older stack))
  | shiftOrUndo {older : List (Point V T)} {stack : List (Symbol V T)} {after : Nat}
      (hresumes : Resumes c older stack after) : Turn g c (.look (shiftOrUndo c older stack))
  | close {next : Option T → Config V T} (hmode : c.mode = .querying)
      (hend : next none = { c with mode := .accepting })
      (hgo : ∀ t, next (some t) = shift c t c.history c.symbols ∨
        ∃ p, nextReduction (byLast g) c.symbols 0 = some p ∧
          next (some t) = BottomUp.reduce c p c.history c.symbols) : Turn g c (.look next)
  | unshift {older : List (Point V T)} (hmode : c.mode = .backtracking)
      (hhistory : c.history = .shift :: older) :
      Turn g c (.enter { c with
        cursor := c.cursor - 1, history := older, symbols := c.symbols.tail })
  | accept (derivation : List Nat) : Turn g c (.accept derivation)
  | reject : Turn g c .reject

theorem turn_move (g : Grammar V T) (start : V) (c : Config V T) :
    Turn g c (move (byLast g) start c) := by
  unfold move
  split
  · rename_i hmode
    simp only [query]
    split
    · refine .close hmode rfl fun t => ?_
      cases hnext : nextReduction (byLast g) c.symbols 0 with
      | some p => exact .inr ⟨p, rfl, rfl⟩
      | none => exact .inl rfl
    · split
      · rename_i hnext
        exact .reduce (.new hmode) hnext
      · exact .shiftOrUndo (.new hmode)
  · rename_i hmode
    unfold backtrack
    split
    · exact .reject
    · rename_i hhistory
      exact .unshift hmode hhistory
    · rename_i hhistory
      dsimp only
      split
      · rename_i hnext
        exact .reduce (.undone hmode hhistory) hnext
      · exact .shiftOrUndo (.undone hmode hhistory)
  · exact .accept _

section Turns

variable {g : Grammar V T} {input : Input V T} {c : Config V T} {older : List (Point V T)}
  {stack : List (Symbol V T)} {after : Nat} {p : Production V T}

theorem mem_reductions_of_next (h : nextReduction (byLast g) stack after = some p) :
    p ∈ reductions g stack := by
  rw [nextReduction_eq_find?] at h
  exact List.mem_of_find?_eq_some h

theorem lt_number_of_next (h : nextReduction (byLast g) stack after = some p) :
    after < p.number := by
  rw [nextReduction_eq_find?] at h
  simpa using List.find?_some h

/-- A choice is made for the stack that the older choices lead to. -/
theorem Accounted.resumed (h : Accounted g input c) (hresumes : Resumes c older stack after) :
    Replays g input older stack ∧ c.cursor = shifts older + 1 := by
  obtain ⟨hreplays, hcursor⟩ := h
  cases hresumes with
  | new _ => exact ⟨hreplays, hcursor⟩
  | undone _ hhistory =>
    rw [hhistory] at hreplays hcursor
    obtain ⟨below, hstack, _, holder⟩ := hreplays.of_reduce
    rw [hstack]
    exact ⟨holder, by rw [hcursor, shifts_reduce]⟩

theorem Accounted.reduce (h : Accounted g input c) (hresumes : Resumes c older stack after)
    (hnext : nextReduction (byLast g) stack after = some p) :
    Accounted g input (reduce c p older stack) := by
  obtain ⟨hreplays, hcursor⟩ := h.resumed hresumes
  exact ⟨.reduce (mem_reductions_of_next hnext) hreplays,
    by rw [BottomUp.reduce, hcursor, shifts_reduce]⟩

theorem Accounted.shift (h : Accounted g input c) (hresumes : Resumes c older stack after) {t : T}
    (hanswer : input.answer (shifts older) = some (.ok t)) :
    Accounted g input (shift c t older stack) := by
  obtain ⟨hreplays, hcursor⟩ := h.resumed hresumes
  exact ⟨.shift hanswer hreplays, by rw [BottomUp.shift, hcursor, shifts_shift]⟩

theorem Accounted.unshift (h : Accounted g input c) (hhistory : c.history = .shift :: older) :
    Accounted g input { c with
      cursor := c.cursor - 1, history := older, symbols := c.symbols.tail } := by
  obtain ⟨hreplays, hcursor⟩ := h
  rw [hhistory] at hreplays hcursor
  obtain ⟨t, below, hstack, _, holder⟩ := hreplays.of_shift
  refine ⟨?_, by simp [hcursor, shifts_shift]⟩
  rw [hstack]
  exact holder

/-- The choices of a history are a run over the terminals shifted, which are the first of the input,
and so its stack derives them. -/
theorem Accounted.exists_run (h : Accounted g input c) :
    ∃ word, c.cursor = word.length + 1 ∧ word.length = shifts c.history ∧
      input.source.Begins input.isTerminal word ∧ (∀ p, .reduce p ∈ c.history → p ∈ g.productions) ∧
      g.Runs (c.history.reverse.map Point.action) ([], word) (c.symbols.reverse, []) ∧
      g.Derives c.symbols.reverse (word.map .terminal) := by
  obtain ⟨word, hlength, hbegins, hruns⟩ := h.replays.runs
  have hrun := hruns []
  rw [List.append_nil] at hrun
  have hderives := hrun.rightParse.derives
  rw [List.map_nil, List.append_nil, List.nil_append] at hderives
  exact ⟨word, by rw [h.cursor, hlength], hlength, hbegins,
    fun p hp => h.replays.mem_productions hp, hrun, hderives⟩

end Turns

variable [Name V] [Name T] {g : Grammar V T} {start : V} {input : Input V T} {c c' : Config V T}

theorem turn_of_move {chosen : Move (Point V T) V T} (h : (machine g start).move c = chosen) :
    Turn g c chosen :=
  h ▸ turn_move g start c

/-- The history accounts for the stack in every configuration of a run. -/
theorem invariant_accounted (g : Grammar V T) (start : V) (input : Input V T) :
    (machine g start).Invariant input fun c _ => Accounted g input c where
  initial := ⟨.start, rfl⟩
  enter := by
    intro c r c' h hmove
    cases turn_of_move hmove with
    | reduce hresumes hnext => exact h.reduce hresumes hnext
    | unshift _ hhistory => exact h.unshift hhistory
  look := by
    intro c r next h hmove hlive
    have hanswer : ∀ t, (r.readTo input c.cursor).seen c.cursor = some t →
        input.answer (shifts c.history) = some (.ok t) := by
      intro t ht
      rw [h.cursor] at hlive ht
      exact hlive.buffer _ _ ht
    generalize (r.readTo input c.cursor).seen c.cursor = seen at hanswer
    cases turn_of_move hmove with
    | shiftOrUndo hresumes =>
      obtain ⟨hreplays, hcursor⟩ := h.resumed hresumes
      cases seen with
      | none => exact ⟨hreplays, hcursor⟩
      | some t =>
        have hshifts := Nat.succ.inj (h.cursor.symm.trans hcursor)
        exact h.shift hresumes (hshifts ▸ hanswer t rfl)
    | close hmode hend hgo =>
      cases seen with
      | none =>
        rw [hend]
        exact ⟨h.replays, h.cursor⟩
      | some t =>
        rcases hgo t with hnext | ⟨p, hp, hnext⟩
        · rw [hnext]
          exact h.shift (.new hmode) (hanswer t rfl)
        · rw [hnext]
          exact h.reduce (.new hmode) hp

/-- A move is one of a depth-first search that tries choices in the order of their actions. -/
theorem proceeds_of_follows (hfollows : (machine g start).Follows c c') :
    Proceeds Point.Before c c' := by
  cases hfollows with
  | enter hmove =>
    cases turn_of_move hmove with
    | reduce hresumes hnext =>
      refine hresumes.proceeds rfl rfl fun p hp => ?_
      have hlater := lt_number_of_next hnext
      rw [← hp] at hlater
      exact hlater
    | unshift hmode hhistory => exact .undo hmode hmode hhistory
  | look seen hmove =>
    cases turn_of_move hmove with
    | shiftOrUndo hresumes =>
      cases seen with
      | some t => exact hresumes.proceeds rfl rfl fun _ _ => trivial
      | none => exact hresumes.proceeds_undo rfl rfl
    | close hmode hend hgo =>
      cases seen with
      | none =>
        rw [hend]
        exact .settle hmode (by simp) rfl
      | some t =>
        rcases hgo t with hnext | ⟨p, _, hnext⟩
        · rw [hnext]
          exact .choose hmode rfl rfl
        · rw [hnext]
          exact .choose hmode rfl rfl

/-- A move makes, takes back or replaces at most one choice. -/
theorem amends_of_follows (hfollows : (machine g start).Follows c c') : Amends c c'.history :=
  (proceeds_of_follows hfollows).amends

/-- A shift that is undone takes the terminal on top with it. -/
theorem move_of_shift {older : List (Point V T)} {below : List (Symbol V T)} {t : T}
    (hmode : c.mode = .backtracking) (hhistory : c.history = .shift :: older)
    (hstack : c.symbols = .terminal t :: below) :
    (machine g start).move c = .enter ⟨.backtracking, c.cursor - 1, older, below⟩ := by
  obtain ⟨mode, cursor, history, symbols⟩ := c
  dsimp only at hmode hhistory hstack
  subst hmode hhistory hstack
  rfl

/-- A reduction that is undone puts its body back in the place of its head. -/
theorem move_of_reduce {older : List (Point V T)} {below : List (Symbol V T)} {p : Production V T}
    (hmode : c.mode = .backtracking) (hhistory : c.history = .reduce p :: older)
    (hstack : c.symbols = .nonterminal p.head :: below) :
    (machine g start).move c = proceed c older (p.body.reverse ++ below)
      (nextReduction (byLast g) (p.body.reverse ++ below) p.number) := by
  obtain ⟨mode, cursor, history, symbols⟩ := c
  dsimp only at hmode hhistory hstack
  subst hmode hhistory hstack
  simp only [machine, move, backtrack, List.tail_cons]
  cases nextReduction (byLast g) (p.body.reverse ++ below) p.number with
  | none => rfl
  | some q => rfl

section Undo

variable {sink : Sink} {moves : Nat} {older : List (Point V T)}

/-- The latest choice was made where the stack was the one that the older choices lead to. -/
theorem exists_older (h : (machine g start).Visits input sink moves c) {a : Point V T}
    (hhistory : c.history = a :: older) :
    ∃ c₀, (machine g start).Chose input sink moves older c₀ ∧
      Replays g input older c₀.symbols ∧ c₀.cursor = shifts older + 1 := by
  obtain ⟨c₀, hchose, hreplays, hcursor⟩ :=
    (invariant_accounted g start input).exists_chose rfl (fun _ _ => amends_of_follows) h hhistory
  rw [hchose.history] at hreplays hcursor
  exact ⟨c₀, hchose, hreplays, hcursor⟩

theorem exists_unshifted (h : (machine g start).Visits input sink moves c)
    (hhistory : c.history = .shift :: older) :
    ∃ c₀ t, (machine g start).Chose input sink moves older c₀ ∧ c.cursor = c₀.cursor + 1 ∧
      input.source (c₀.cursor - 1) = some (.terminal t) ∧ c.symbols = .terminal t :: c₀.symbols ∧
      (c.mode = .backtracking →
        (machine g start).move c = .enter { c₀ with mode := .backtracking }) := by
  obtain ⟨c₀, hchose, holder, hbefore⟩ := exists_older h hhistory
  obtain ⟨_, hreplays, hcursor⟩ := (invariant_accounted g start input).visits h
  rw [hhistory] at hreplays
  rw [hhistory, shifts_shift, ← hbefore] at hcursor
  obtain ⟨t, below, hstack, hanswer, hbelow⟩ := hreplays.of_shift
  cases holder.unique hbelow
  refine ⟨c₀, t, hchose, hcursor, ?_, hstack, ?_⟩
  · rw [hbefore, Nat.add_sub_cancel]
    exact Input.source_of_answer hanswer
  · intro hmode
    rw [move_of_shift hmode hhistory hstack, hcursor, Nat.add_sub_cancel, ← hchose.history]

theorem exists_unreduced (h : (machine g start).Visits input sink moves c) {p : Production V T}
    (hhistory : c.history = .reduce p :: older) :
    ∃ c₀ below, (machine g start).Chose input sink moves older c₀ ∧ c.cursor = c₀.cursor ∧
      c₀.symbols = p.body.reverse ++ below ∧ p.body.length ≤ c₀.symbols.length ∧
      c.symbols = .nonterminal p.head :: below ∧
      (c.mode = .backtracking →
        (machine g start).move c =
          proceed c older c₀.symbols (nextReduction (byLast g) c₀.symbols p.number) ∧
        shiftOrUndo c older c₀.symbols none = { c₀ with mode := .backtracking }) := by
  obtain ⟨c₀, hchose, holder, hbefore⟩ := exists_older h hhistory
  obtain ⟨_, hreplays, hcursor⟩ := (invariant_accounted g start input).visits h
  rw [hhistory] at hreplays
  rw [hhistory, shifts_reduce, ← hbefore] at hcursor
  obtain ⟨below, hstack, _, hbelow⟩ := hreplays.of_reduce
  have hbody := holder.unique hbelow
  refine ⟨c₀, below, hchose, hcursor, hbody, by simp [hbody], hstack, ?_⟩
  intro hmode
  rw [hbody]
  refine ⟨move_of_reduce hmode hhistory hstack, ?_⟩
  rw [shiftOrUndo, hcursor, ← hbody, ← hchose.history]

end Undo

/-- In every configuration of every run, in whatever mode, the cursor stands behind the terminals
shifted, which are the first of the input, and the choices of the history are a run over them from
the empty stack to the stack at hand, which therefore derives them. So a shift that is undone takes
with it the terminal at the cursor before, and nothing else. A reduction has found its body on top of
the stack, and when it is undone it finds its head there and brings the body back. And the cursor
never falls below 1. -/
theorem stack_accounts_exactly (g : Grammar V T) (start : V) (input : Input V T) (sink : Sink)
    {moves : Nat} {c : Config V T} (h : (machine g start).Visits input sink moves c) :
    (∃ word, c.cursor = word.length + 1 ∧ word.length = shifts c.history ∧
      input.source.Begins input.isTerminal word ∧ (∀ p, .reduce p ∈ c.history → p ∈ g.productions) ∧
      g.Runs (c.history.reverse.map Point.action) ([], word) (c.symbols.reverse, []) ∧
      g.Derives c.symbols.reverse (word.map .terminal)) ∧
    (∀ older, c.history = .shift :: older →
      ∃ c₀ t, (machine g start).Chose input sink moves older c₀ ∧ c.cursor = c₀.cursor + 1 ∧
        input.source (c₀.cursor - 1) = some (.terminal t) ∧
        c.symbols = .terminal t :: c₀.symbols ∧
        (c.mode = .backtracking →
          (machine g start).move c = .enter { c₀ with mode := .backtracking })) ∧
    (∀ p older, c.history = .reduce p :: older →
      ∃ c₀ below, (machine g start).Chose input sink moves older c₀ ∧ c.cursor = c₀.cursor ∧
        c₀.symbols = p.body.reverse ++ below ∧ p.body.length ≤ c₀.symbols.length ∧
        c.symbols = .nonterminal p.head :: below ∧
        (c.mode = .backtracking →
          (machine g start).move c =
            proceed c older c₀.symbols (nextReduction (byLast g) c₀.symbols p.number) ∧
          shiftOrUndo c older c₀.symbols none = { c₀ with mode := .backtracking })) ∧
    1 ≤ c.cursor := by
  obtain ⟨_, haccounted⟩ := (invariant_accounted g start input).visits h
  refine ⟨haccounted.exists_run, fun older hhistory => exists_unshifted h hhistory,
    fun p older hhistory => exists_unreduced h hhistory, ?_⟩
  rw [haccounted.cursor]
  exact Nat.le_add_left 1 _

/-- On the truncated sum the `+` is taken back first, and then the reduction to `E`. -/
theorem stack_accounts_exactly_truncatedSum :
    ∃ c, (machine sums 'E').Visits ⟨truncatedSum, sums.isTerminal⟩ .silent 6 c ∧
      c.mode = .backtracking ∧
      c.history =
        [.reduce ⟨⟨'E', [.nonterminal 'V']⟩, 2⟩, .reduce ⟨⟨'V', [.terminal 'x']⟩, 3⟩, .shift] ∧
      sums.Derives [.nonterminal 'E'] [.terminal 'x'] ∧
      ∃ c₀ below, (machine sums 'E').Chose ⟨truncatedSum, sums.isTerminal⟩ .silent 6
          [.reduce ⟨⟨'V', [.terminal 'x']⟩, 3⟩, .shift] c₀ ∧
        c₀.symbols = .nonterminal 'V' :: below ∧ c.symbols = .nonterminal 'E' :: below ∧
          (machine sums 'E').move c = proceed c [.reduce ⟨⟨'V', [.terminal 'x']⟩, 3⟩, .shift]
            c₀.symbols (nextReduction (byLast sums) c₀.symbols 2) := by
  have hvisits : ∃ c, (machine sums 'E').Visits ⟨truncatedSum, sums.isTerminal⟩ .silent 6 c ∧
      c.mode = .backtracking ∧
      c.history =
        [.reduce ⟨⟨'E', [.nonterminal 'V']⟩, 2⟩, .reduce ⟨⟨'V', [.terminal 'x']⟩, 3⟩, .shift] ∧
      c.symbols = [.nonterminal 'E'] :=
    ⟨_, ⟨_, _, rfl⟩, rfl, rfl, rfl⟩
  obtain ⟨c, h, hmode, hhistory, hsymbols⟩ := hvisits
  obtain ⟨⟨word, _, hlength, hbegins, _, _, hderives⟩, _, hreduce, _⟩ :=
    stack_accounts_exactly _ _ _ _ h
  obtain ⟨c₀, below, hchose, _, hbody, _, hstack, hundo⟩ := hreduce _ _ hhistory
  have hword : word = ['x'] := by
    rw [hhistory] at hlength
    obtain ⟨t, rfl⟩ := List.length_eq_one_iff.mp hlength
    cases (hbegins 0 t rfl).1
    rfl
  rw [hsymbols, hword] at hderives
  exact ⟨c, h, hmode, hhistory, hderives, c₀, below, hchose, hbody, hstack, (hundo hmode).1⟩

end ContextFree.BottomUp
