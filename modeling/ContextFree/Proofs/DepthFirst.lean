import ContextFree.Proofs.History

namespace ContextFree

variable {P V T : Type}

/-- What is passed on the way through a tree of choices: a node is opened for its first choice, one
of its choices is made, or it is closed behind the last one. -/
inductive Milestone (P : Type) where
  | opened
  | chosen (a : P)
  | closed

namespace Milestone

/-- All choices at a node are made after it is opened and before it is closed. -/
def Before (before : P → P → Prop) : Milestone P → Milestone P → Prop
  | opened, chosen _ => True
  | opened, closed => True
  | chosen a, chosen b => before a b
  | chosen _, closed => True
  | _, _ => False

variable {before : P → P → Prop}

theorem before_irrefl (hirrefl : ∀ a, ¬ before a a) (l : Milestone P) : ¬ l.Before before l := by
  cases l with
  | opened => exact id
  | chosen a => exact hirrefl a
  | closed => exact id

theorem before_trans (htrans : ∀ a b c, before a b → before b c → before a c)
    (l l' l'' : Milestone P) (h : l.Before before l') (h' : l'.Before before l'') :
    l.Before before l'' := by
  cases l <;> cases l' <;> cases l'' <;> first | exact htrans _ _ _ h h' | trivial

theorem not_closed_before (l : Milestone P) : ¬ (closed : Milestone P).Before before l := by
  cases l <;> exact id

end Milestone

/-- A node is open only while the next choice is to be made at it. -/
def Mode.milestone (P : Type) : Mode → Milestone P
  | querying => .opened
  | backtracking => .closed
  | accepting => .closed

namespace Configuration

/-- The way to a configuration through the tree of choices: those of its history, the oldest first,
and then what has come of the node that they lead to. -/
def route (c : Configuration P V T) : List (Milestone P) :=
  c.history.reverse.map .chosen ++ [c.mode.milestone P]

/-- The depth-first order of configurations. -/
def Precedes (before : P → P → Prop) (c d : Configuration P V T) : Prop :=
  Earlier (Milestone.Before before) c.route d.route

variable {before : P → P → Prop} {c d e : Configuration P V T}

theorem route_of_cons {a : P} {older : List P} (h : c.history = a :: older) :
    c.route = older.reverse.map .chosen ++ [.chosen a, c.mode.milestone P] := by
  simp [route, h]

theorem Precedes.trans (htrans : ∀ a b c, before a b → before b c → before a c)
    (h : c.Precedes before d) (h' : d.Precedes before e) : c.Precedes before e :=
  Earlier.trans (Milestone.before_trans htrans) h h'

theorem not_precedes_of_eq (hirrefl : ∀ a, ¬ before a a) (hmode : c.mode = d.mode)
    (hhistory : c.history = d.history) : ¬ c.Precedes before d := by
  intro h
  have hroute : c.route = d.route := by rw [route, route, hmode, hhistory]
  exact Earlier.ne (Milestone.before_irrefl hirrefl) h hroute

/-- A node is closed behind everything below it. -/
theorem not_precedes_of_suffix (hirrefl : ∀ a, ¬ before a a) (hmode : c.mode = .backtracking)
    (hsuffix : c.history <:+ d.history) : ¬ c.Precedes before d := by
  intro h
  obtain ⟨newer, hnewer⟩ := hsuffix
  rw [Precedes, route, route, ← hnewer, List.reverse_append, List.map_append, List.append_assoc,
    hmode] at h
  have hbehind := Earlier.of_append_left (Milestone.before_irrefl hirrefl) h
  generalize newer.reverse.map Milestone.chosen ++ [d.mode.milestone P] = back at hbehind
  cases hbehind with
  | head _ _ hb => exact Milestone.not_closed_before _ hb
  | tail _ hnil => cases hnil

end Configuration

/-- All that a move of a depth-first search does: it makes the first choice at a node or closes it
without one, or it undoes the latest choice, in whose place it puts a later one or none. -/
inductive Proceeds (before : P → P → Prop) (c d : Configuration P V T) : Prop
  | choose {a : P} (hmode : c.mode = .querying) (hmode' : d.mode = .querying)
      (hhistory : d.history = a :: c.history)
  | settle (hmode : c.mode = .querying) (hmode' : d.mode ≠ .querying)
      (hhistory : d.history = c.history)
  | replace {a b : P} {older : List P} (hbefore : before a b) (hmode : c.mode = .backtracking)
      (hmode' : d.mode = .querying) (hhistory : c.history = a :: older)
      (hhistory' : d.history = b :: older)
  | undo {a : P} (hmode : c.mode = .backtracking) (hmode' : d.mode = .backtracking)
      (hhistory : c.history = a :: d.history)

theorem Proceeds.precedes {before : P → P → Prop} {c d : Configuration P V T}
    (h : Proceeds before c d) : c.Precedes before d := by
  unfold Configuration.Precedes
  cases h with
  | choose hmode _ hhistory =>
    rw [Configuration.route_of_cons hhistory, Configuration.route, hmode]
    exact .append_left _ (.head _ _ trivial)
  | settle hmode hmode' hhistory =>
    rw [Configuration.route, Configuration.route, hhistory, hmode]
    refine .append_left _ (.head _ _ ?_)
    cases hd : d.mode with
    | querying => exact hmode' hd
    | backtracking => trivial
    | accepting => trivial
  | replace hbefore _ _ hhistory hhistory' =>
    rw [Configuration.route_of_cons hhistory, Configuration.route_of_cons hhistory']
    exact .append_left _ (.head _ _ hbefore)
  | undo _ hmode' hhistory =>
    rw [Configuration.route_of_cons hhistory, Configuration.route, hmode']
    exact .append_left _ (.head _ _ trivial)

/-- A history that is new behind a move is at once that of a configuration which makes its next
choice. -/
theorem Proceeds.of_suffix {before : P → P → Prop} {c d : Configuration P V T}
    (h : Proceeds before c d) {older : List P} (hsuffix : older <:+ d.history) :
    older <:+ c.history ∨ d.mode = .querying ∧ older = d.history := by
  cases h with
  | choose _ hmode hhistory =>
    rw [hhistory] at hsuffix ⊢
    exact (List.suffix_cons_iff.mp hsuffix).symm.imp_right fun heq => ⟨hmode, heq⟩
  | settle _ _ hhistory => exact .inl (hhistory ▸ hsuffix)
  | replace _ _ hmode hhistory hhistory' =>
    rw [hhistory'] at hsuffix ⊢
    rw [hhistory]
    refine (List.suffix_cons_iff.mp hsuffix).symm.imp ?_ fun heq => ⟨hmode, heq⟩
    exact fun hsuffix => hsuffix.trans (List.suffix_cons _ _)
  | undo _ _ hhistory => exact .inl (hhistory ▸ hsuffix.trans (List.suffix_cons _ _))

theorem Proceeds.amends {before : P → P → Prop} {c d : Configuration P V T}
    (h : Proceeds before c d) : Amends c d.history := by
  cases h with
  | choose hmode _ hhistory =>
    rw [hhistory]
    exact .make _ hmode
  | settle _ _ hhistory =>
    rw [hhistory]
    exact .keep
  | replace _ _ _ hhistory hhistory' =>
    rw [hhistory']
    exact .replace _ hhistory
  | undo _ _ hhistory => exact .drop hhistory

namespace Machine

/-- An automaton whose every move is one of a depth-first search, with a strict order in which the
choices at a node are tried. -/
structure Orderly (m : Machine P V T) (before : P → P → Prop) : Prop where
  irrefl : ∀ a, ¬ before a a
  trans : ∀ a b c, before a b → before b c → before a c
  initial_mode : m.initial.mode = .querying
  initial_history : m.initial.history = []
  proceeds : ∀ c d, m.Follows c d → Proceeds before c d

/-- A run comes to no configuration again: no two of its steps have the same mode and the same
history. It is in backtracking mode at a history only after it has queried it, and behind all steps
whose histories extend it. -/
structure Unrepeated (m : Machine P V T) (input : Input V T) (sink : Sink) : Prop where
  unique : ∀ i j c d, m.Visits input sink i c → m.Visits input sink j d → c.mode = d.mode →
    c.history = d.history → i = j
  queried : ∀ i c, m.Visits input sink i c → c.mode = .backtracking →
    ∃ j < i, ∃ d, m.Visits input sink j d ∧ d.mode = .querying ∧ d.history = c.history
  last : ∀ i j c d, m.Visits input sink i c → m.Visits input sink j d → c.mode = .backtracking →
    c.history <:+ d.history → j ≤ i

variable {m : Machine P V T} {before : P → P → Prop} {input : Input V T} {sink : Sink}
  {i j : Nat} {c d : Configuration P V T}

/-- Later steps of a run come later in the depth-first order. -/
theorem Orderly.precedes (h : m.Orderly before) (hc : m.Visits input sink i c)
    (hd : m.Visits input sink j d) (hlt : i < j) : c.Precedes before d := by
  induction j generalizing d with
  | zero => exact False.elim (Nat.not_lt_zero i hlt)
  | succ j ih =>
    obtain ⟨e, he, hfollows⟩ := exists_visits_of_succ hd
    have hlast := (h.proceeds e d hfollows).precedes
    rcases Nat.lt_succ_iff_lt_or_eq.mp hlt with hlt | rfl
    · exact (ih he hlt).trans h.trans hlast
    · rw [hc.unique he]
      exact hlast

/-- A run has made the next choice at a history, and at all histories that it extends, before it
comes to anything else there. -/
theorem Orderly.exists_queried (h : m.Orderly before) (hc : m.Visits input sink i c)
    {older : List P} (hsuffix : older <:+ c.history) :
    ∃ j ≤ i, ∃ d, m.Visits input sink j d ∧ d.mode = .querying ∧ d.history = older := by
  induction i generalizing c with
  | zero =>
    cases visits_zero hc
    rw [h.initial_history] at hsuffix
    cases List.suffix_nil.mp hsuffix
    exact ⟨0, Nat.le_refl 0, _, hc, h.initial_mode, h.initial_history⟩
  | succ i ih =>
    obtain ⟨e, he, hfollows⟩ := exists_visits_of_succ hc
    rcases (h.proceeds e c hfollows).of_suffix hsuffix with hsuffix | ⟨hmode, hhistory⟩
    · obtain ⟨j, hj, hd⟩ := ih he hsuffix
      exact ⟨j, Nat.le_succ_of_le hj, hd⟩
    · exact ⟨i + 1, Nat.le_refl _, c, hc, hmode, hhistory.symm⟩

theorem Orderly.unrepeated (h : m.Orderly before) (input : Input V T) (sink : Sink) :
    m.Unrepeated input sink where
  unique := by
    intro i j c d hc hd hmode hhistory
    rcases Nat.lt_trichotomy i j with hlt | rfl | hlt
    · have hprecedes := h.precedes hc hd hlt
      exact False.elim (Configuration.not_precedes_of_eq h.irrefl hmode hhistory hprecedes)
    · rfl
    · have hprecedes := h.precedes hd hc hlt
      exact False.elim
        (Configuration.not_precedes_of_eq h.irrefl hmode.symm hhistory.symm hprecedes)
  queried := by
    intro i c hc hmode
    obtain ⟨j, hj, d, hd, hquerying, hhistory⟩ := h.exists_queried hc List.suffix_rfl
    refine ⟨j, Nat.lt_of_le_of_ne hj ?_, d, hd, hquerying, hhistory⟩
    rintro rfl
    cases hc.unique hd
    cases hmode.symm.trans hquerying
  last := by
    intro i j c d hc hd hmode hsuffix
    rcases Nat.lt_or_ge i j with hlt | hle
    · have hprecedes := h.precedes hc hd hlt
      exact False.elim (Configuration.not_precedes_of_suffix h.irrefl hmode hsuffix hprecedes)
    · exact hle

end Machine

end ContextFree
