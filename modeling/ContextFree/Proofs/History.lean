import ContextFree.Proofs.Extent
import ContextFree.Proofs.Invariant

namespace ContextFree

variable {P V T : Type}

/-- What an input answers next prolongs a word that it begins with. -/
theorem Source.Begins.concat {input : Input V T} {word : List T} {t : T}
    (h : input.source.Begins input.isTerminal word)
    (hanswer : input.answer word.length = some (.ok t)) :
    input.source.Begins input.isTerminal (word ++ [t]) := by
  intro i s hs
  rcases Nat.lt_or_ge i word.length with hlt | hge
  · rw [List.getElem?_append_left hlt] at hs
    exact h i s hs
  · rw [List.getElem?_append_right hge, List.getElem?_singleton] at hs
    split at hs
    · rename_i hzero
      cases hs
      rw [Nat.le_antisymm (Nat.le_of_sub_eq_zero hzero) hge]
      exact Input.answer_eq_ok.mp hanswer
    · cases hs

namespace Machine

/-- A run is in a configuration after a number of moves. -/
def Visits (m : Machine P V T) (input : Input V T) (sink : Sink) (moves : Nat)
    (c : Configuration P V T) : Prop :=
  ∃ r sink', m.run input moves (m.start sink) = .running ⟨c, r, sink'⟩

/-- One configuration comes directly behind another, whatever is seen of the input. -/
inductive Follows (m : Machine P V T) (c : Configuration P V T) : Configuration P V T → Prop
  | enter {c' : Configuration P V T} (hmove : m.move c = .enter c') : Follows m c c'
  | look {next : Option T → Configuration P V T} (seen : Option T)
      (hmove : m.move c = .look next) : Follows m c (next seen)

/-- A configuration in which a run, before the given number of moves, had made the given choices and
then made a further one. -/
structure Chose (m : Machine P V T) (input : Input V T) (sink : Sink) (moves : Nat)
    (older : List P) (c : Configuration P V T) : Prop where
  history : c.history = older
  mode : c.mode = .querying
  made : ∃ earlier < moves, ∃ a c', m.Visits input sink earlier c ∧
    m.Visits input sink (earlier + 1) c' ∧ c'.history = a :: older

variable {m : Machine P V T} {input : Input V T} {sink : Sink} {moves : Nat}
  {c c' : Configuration P V T} {older : List P}

theorem eq_of_enter_eq_running {r r' : Reader V T} {sink' : Sink}
    (h : m.enter c r sink = .running ⟨c', r', sink'⟩) : c = c' := by
  unfold enter at h
  split at h
  · cases h
  · cases h
    rfl

theorem Visits.unique (h : m.Visits input sink moves c) (h' : m.Visits input sink moves c') :
    c = c' := by
  obtain ⟨r, sink₁, hrun⟩ := h
  obtain ⟨r', sink₂, hrun'⟩ := h'
  cases hrun.symm.trans hrun'
  rfl

theorem visits_zero (h : m.Visits input sink 0 c) : c = m.initial := by
  obtain ⟨r, sink', hrun⟩ := h
  exact (eq_of_enter_eq_running hrun).symm

/-- Every configuration but the first comes behind the one that was visited before it. -/
theorem exists_visits_of_succ (h : m.Visits input sink (moves + 1) c') :
    ∃ c, m.Visits input sink moves c ∧ m.Follows c c' := by
  obtain ⟨r', sink', hrun⟩ := h
  rw [run_add] at hrun
  cases hbefore : m.run input moves (m.start sink) with
  | halted outcome r sink =>
    rw [hbefore, run_halted] at hrun
    cases hrun
  | running s =>
    obtain ⟨c, r, sink⟩ := s
    refine ⟨c, ⟨r, sink, hbefore⟩, ?_⟩
    rw [hbefore, run, run] at hrun
    cases hm : m.move c with
    | accept derivation => simp [advance, hm] at hrun
    | reject => simp [advance, hm] at hrun
    | enter c₁ =>
      simp only [advance, hm] at hrun
      exact eq_of_enter_eq_running hrun ▸ .enter hm
    | look next =>
      simp only [advance, hm] at hrun
      split at hrun
      · cases hrun
      · exact eq_of_enter_eq_running hrun ▸ .look _ hm

/-- An invariant holds in every configuration that a run visits. -/
theorem Invariant.visits {inv : Configuration P V T → Reader V T → Prop}
    (hkeep : m.Invariant input inv) (h : m.Visits input sink moves c) : ∃ r, inv c r := by
  obtain ⟨r, sink', hrun⟩ := h
  have hkept := hkeep.kept sink moves
  rw [hrun] at hkept
  cases hkept with
  | running _ hinv => exact ⟨r, hinv⟩

theorem Chose.mono (h : m.Chose input sink moves older c) :
    m.Chose input sink (moves + 1) older c := by
  obtain ⟨earlier, hlt, hmade⟩ := h.made
  exact ⟨h.history, h.mode, earlier, Nat.lt_succ_of_lt hlt, hmade⟩

end Machine

/-- All that a move can do to the choices made: it leaves them alone, makes a new one, takes the
latest one back, or puts another one in its place. -/
inductive Amends (c : Configuration P V T) : List P → Prop
  | keep : Amends c c.history
  | make (a : P) (hmode : c.mode = .querying) : Amends c (a :: c.history)
  | drop {a : P} {older : List P} (hhistory : c.history = a :: older) : Amends c older
  | replace {a : P} {older : List P} (b : P) (hhistory : c.history = a :: older) :
      Amends c (b :: older)

/-- Every choice in the history of a configuration was made in a configuration that the run has
visited before, and that had the older choices for its history. -/
theorem Machine.exists_chose {m : Machine P V T} {input : Input V T} {sink : Sink}
    (hinitial : m.initial.history = [])
    (hamends : ∀ c c', m.Follows c c' → Amends c c'.history) {moves : Nat}
    {c : Configuration P V T} (h : m.Visits input sink moves c) {a : P} {older : List P}
    (hsuffix : a :: older <:+ c.history) : ∃ c₀, m.Chose input sink moves older c₀ := by
  induction moves generalizing c a older with
  | zero =>
    rw [visits_zero h, hinitial] at hsuffix
    cases List.suffix_nil.mp hsuffix
  | succ moves ih =>
    obtain ⟨before, hbefore, hfollows⟩ := exists_visits_of_succ h
    have hearlier : ∀ {b older}, b :: older <:+ before.history →
        ∃ c₀, m.Chose input sink (moves + 1) older c₀ := by
      intro b older hb
      obtain ⟨c₀, hchose⟩ := ih hbefore hb
      exact ⟨c₀, hchose.mono⟩
    have hkind := hamends before c hfollows
    generalize hhistory : c.history = history at hkind hsuffix
    cases hkind with
    | keep => exact hearlier hsuffix
    | make b hmode =>
      rcases List.suffix_cons_iff.mp hsuffix with heq | hsuffix
      · cases heq
        exact ⟨before, rfl, hmode, moves, Nat.lt_succ_self _, a, c, hbefore, h, hhistory⟩
      · exact hearlier hsuffix
    | drop hdropped =>
      apply hearlier
      rw [hdropped]
      exact hsuffix.trans (List.suffix_cons _ _)
    | replace b hreplaced =>
      rcases List.suffix_cons_iff.mp hsuffix with heq | hsuffix
      · cases heq
        exact hearlier ⟨[], hreplaced.symm⟩
      · apply hearlier
        rw [hreplaced]
        exact hsuffix.trans (List.suffix_cons _ _)

/-- What holds along every run held where the latest choice was made. -/
theorem Machine.Invariant.exists_chose {m : Machine P V T} {input : Input V T}
    {inv : Configuration P V T → Prop} (hkeep : m.Invariant input fun c _ => inv c)
    (hinitial : m.initial.history = [])
    (hamends : ∀ c c', m.Follows c c' → Amends c c'.history) {sink : Sink} {moves : Nat}
    {c : Configuration P V T} (h : m.Visits input sink moves c) {a : P} {older : List P}
    (hhistory : c.history = a :: older) : ∃ c₀, m.Chose input sink moves older c₀ ∧ inv c₀ := by
  obtain ⟨c₀, hchose⟩ := Machine.exists_chose hinitial hamends h ⟨[], hhistory.symm⟩
  obtain ⟨_, _, _, _, hvisits, _, _⟩ := hchose.made
  obtain ⟨_, hinv⟩ := hkeep.visits hvisits
  exact ⟨c₀, hchose, hinv⟩

end ContextFree
