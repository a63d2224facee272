import ContextFree.Proofs.Steps
import Mathlib.Logic.Relation

namespace ContextFree

open Relation

/-- What a search meets at a node. -/
inductive Outlook (A N : Type) where
  | goal
  /-- Choices, in the order in which they are tried, with the nodes that they lead to. Behind the
  last one the search turns back, unless it is blocked there. -/
  | options (choices : List (A × N)) (blocked : Bool)

/-- A tree of choices. -/
abbrev Search (A N : Type) := N → Outlook A N

namespace Search

variable {A N : Type} (S : Search A N)

/-- A choice leads from a node to another one. -/
def Leads (a : A) (n c : N) : Prop :=
  ∃ choices blocked, S n = .options choices blocked ∧ (a, c) ∈ choices

/-- The first node can be chosen at the second one. -/
def Child (c n : N) : Prop :=
  ∃ a, S.Leads a n c

/-- Choices that lead from a node to a goal. -/
def Solves (n : N) (path : List A) : Prop :=
  ∃ e, Steps S.Leads path n e ∧ S e = .goal

/-- A search of everything below a node would be blocked somewhere. -/
def Blocks (n : N) : Prop :=
  ∃ path e choices, Steps S.Leads path n e ∧ S e = .options choices true

/-- Choices that lead to a goal and begin with one of a list. -/
def SolvesAmong (choices : List (A × N)) (path : List A) : Prop :=
  ∃ a c rest, path = a :: rest ∧ (a, c) ∈ choices ∧ S.Solves c rest

/-- A search of the nodes in a list would be blocked below one of them or behind the last one. -/
def BlocksAmong (choices : List (A × N)) (blocked : Bool) : Prop :=
  blocked = true ∨ ∃ a c, (a, c) ∈ choices ∧ S.Blocks c

variable {S}

theorem solves_options {n : N} {choices : List (A × N)} {blocked : Bool}
    (hn : S n = .options choices blocked) (path : List A) :
    S.Solves n path ↔ S.SolvesAmong choices path := by
  constructor
  · intro h
    obtain ⟨e, hpath, he⟩ := h
    cases hpath with
    | nil => simp [hn] at he
    | cons hs hrest =>
      obtain ⟨choices', blocked', hn', hm⟩ := hs
      rw [hn] at hn'
      cases hn'
      exact ⟨_, _, _, rfl, hm, e, hrest, he⟩
  · intro h
    obtain ⟨a, c, rest, rfl, hm, e, hrest, he⟩ := h
    exact ⟨e, .cons ⟨choices, blocked, hn, hm⟩ hrest, he⟩

theorem blocks_options {n : N} {choices : List (A × N)} {blocked : Bool}
    (hn : S n = .options choices blocked) : S.Blocks n ↔ S.BlocksAmong choices blocked := by
  constructor
  · intro h
    obtain ⟨path, e, choices', hpath, he⟩ := h
    cases hpath with
    | nil =>
      rw [hn] at he
      cases he
      exact .inl rfl
    | cons hs hrest =>
      obtain ⟨_, _, hn', hm⟩ := hs
      rw [hn] at hn'
      cases hn'
      exact .inr ⟨_, _, hm, _, e, choices', hrest, he⟩
  · intro h
    rcases h with rfl | ⟨a, c, hm, path, e, choices', hpath, he⟩
    · exact ⟨[], n, choices, .nil n, hn⟩
    · exact ⟨a :: path, e, choices', .cons ⟨choices, blocked, hn, hm⟩ hpath, he⟩

theorem Blocks.of_leads {a : A} {n c : N} (h : S.Leads a n c) (hc : S.Blocks c) : S.Blocks n := by
  obtain ⟨path, e, choices, hpath, he⟩ := hc
  exact ⟨a :: path, e, choices, .cons h hpath, he⟩

theorem solves_goal {n : N} (hn : S n = .goal) (path : List A) : S.Solves n path ↔ path = [] := by
  constructor
  · intro h
    obtain ⟨e, hpath, _⟩ := h
    cases hpath with
    | nil => rfl
    | cons hs _ =>
      obtain ⟨_, _, hn', _⟩ := hs
      rw [hn] at hn'
      cases hn'
  · intro hpath
    subst hpath
    exact ⟨n, .nil n, hn⟩

theorem solvesAmong_cons (a : A) (c : N) (choices : List (A × N)) (path : List A) :
    S.SolvesAmong ((a, c) :: choices) path ↔
      (∃ rest, path = a :: rest ∧ S.Solves c rest) ∨ S.SolvesAmong choices path := by
  constructor
  · intro h
    obtain ⟨a', c', rest, rfl, hm, hs⟩ := h
    rcases List.mem_cons.mp hm with heq | hm
    · cases heq
      exact .inl ⟨rest, rfl, hs⟩
    · exact .inr ⟨a', c', rest, rfl, hm, hs⟩
  · intro h
    rcases h with ⟨rest, rfl, hs⟩ | ⟨a', c', rest, rfl, hm, hs⟩
    · exact ⟨a, c, rest, rfl, List.mem_cons_self, hs⟩
    · exact ⟨a', c', rest, rfl, List.mem_cons_of_mem _ hm, hs⟩

theorem blocksAmong_cons (a : A) (c : N) (choices : List (A × N)) (blocked : Bool) :
    S.BlocksAmong ((a, c) :: choices) blocked ↔ S.Blocks c ∨ S.BlocksAmong choices blocked := by
  constructor
  · intro h
    rcases h with h | ⟨a', c', hm, hb⟩
    · exact .inr (.inl h)
    · rcases List.mem_cons.mp hm with heq | hm
      · cases heq
        exact .inl hb
      · exact .inr (.inr ⟨a', c', hm, hb⟩)
  · intro h
    rcases h with hb | h | ⟨a', c', hm, hb⟩
    · exact .inr ⟨a, c, List.mem_cons_self, hb⟩
    · exact .inl h
    · exact .inr ⟨a', c', List.mem_cons_of_mem _ hm, hb⟩

end Search

/-- A system whose states are those in which a node is entered and those in which it is left, each
under the choices that led to the node, the latest first. -/
structure Backtracker (A N C : Type) where
  search : Search A N
  step : C → C → Prop
  breaks : C → Prop
  enter : N → List A → C
  leave : N → List A → C

namespace Backtracker

variable {A N C : Type} (b : Backtracker A N C)

/-- From a state the system turns to a choice at a node, or it leaves the node or breaks if there
is no further choice. -/
def Turns (x : C) (n : N) (history : List A) (blocked : Bool) : Option (A × N) → Prop
  | some (a, c) => b.step x (b.enter c (a :: history))
  | none => if blocked then b.breaks x else b.step x (b.leave n history)

/-- The system tries the choices at a node one after the other: a choice that it leaves makes way
for the next one. -/
structure Lawful : Prop where
  begins : ∀ n history choices blocked, b.search n = .options choices blocked →
    b.Turns (b.enter n history) n history blocked choices[0]?
  resumes : ∀ n history choices blocked k a c, b.search n = .options choices blocked →
    choices[k]? = some (a, c) →
    b.Turns (b.leave c (a :: history)) n history blocked choices[k + 1]?

/-- How the search of a node ends that goes on from a state: with the first solution, or back at the
node if there is none, or blocked. -/
inductive Ends (before : A → A → Prop) (solves : List A → Prop) (blocks : Prop) (x : C) (n : N)
    (history : List A) : Prop
  | found (path : List A) (e : N) (hsolves : solves path)
      (hfirst : ∀ path', solves path' → path' = path ∨ Earlier before path path')
      (hgoal : b.search e = .goal)
      (hreach : ReflTransGen b.step x (b.enter e (path.reverse ++ history)))
  | exhausted (hsolves : ∀ path, ¬ solves path) (hblocks : ¬ blocks)
      (hreach : ReflTransGen b.step x (b.leave n history))
  | blocked (y : C) (hblocks : blocks) (hreach : ReflTransGen b.step x y) (hbreaks : b.breaks y)

variable {b} {before : A → A → Prop}

theorem Ends.congr {solves solves' : List A → Prop} {blocks blocks' : Prop} {x : C} {n : N}
    {history : List A} (hs : ∀ path, solves path ↔ solves' path) (hb : blocks ↔ blocks')
    (h : b.Ends before solves blocks x n history) :
    b.Ends before solves' blocks' x n history := by
  have he : solves = solves' := funext fun path => propext (hs path)
  rw [← he, ← propext hb]
  exact h

theorem Ends.after {solves : List A → Prop} {blocks : Prop} {x y : C} {n : N} {history : List A}
    (hxy : ReflTransGen b.step x y) (h : b.Ends before solves blocks y n history) :
    b.Ends before solves blocks x n history := by
  cases h with
  | found path e hs hf hg hr => exact .found path e hs hf hg (hxy.trans hr)
  | exhausted hs hb hr => exact .exhausted hs hb (hxy.trans hr)
  | blocked z hb hr hz => exact .blocked z hb (hxy.trans hr) hz

/-- The search of the choices from some place on ends if the search of each of them does. -/
theorem Lawful.ends_among (law : b.Lawful) {n : N} {choices : List (A × N)} {blocked : Bool}
    (hn : b.search n = .options choices blocked) {history : List A}
    (hsub : ∀ a c, (a, c) ∈ choices → b.Ends before (b.search.Solves c) (b.search.Blocks c)
      (b.enter c (a :: history)) c (a :: history))
    (rest : List (A × N)) (k : Nat) (hk : choices.drop k = rest)
    (hsorted : rest.Pairwise fun x y => before x.1 y.1) (x : C)
    (hx : b.Turns x n history blocked choices[k]?) :
    b.Ends before (b.search.SolvesAmong rest) (b.search.BlocksAmong rest blocked) x n history := by
  induction rest generalizing k x with
  | nil =>
    have hnone : choices[k]? = none := by
      rw [List.getElem?_eq_none_iff]
      exact List.drop_eq_nil_iff.mp hk
    rw [hnone] at hx
    cases blocked with
    | true => exact .blocked x (.inl rfl) .refl hx
    | false =>
      refine .exhausted ?_ ?_ (.single hx)
      · intro path h
        obtain ⟨a, c, rest, _, hm, _⟩ := h
        cases hm
      · intro h
        rcases h with h | ⟨a, c, hm, _⟩
        · cases h
        · cases hm
  | cons head rest ih =>
    obtain ⟨a, c⟩ := head
    have hhead : choices[k]? = some (a, c) := by
      rw [← List.head?_drop, hk, List.head?_cons]
    have hrest : choices.drop (k + 1) = rest := by
      rw [← List.tail_drop, hk, List.tail_cons]
    rw [hhead] at hx
    obtain ⟨hlt, hsorted⟩ := List.pairwise_cons.mp hsorted
    have hstep : ReflTransGen b.step x (b.enter c (a :: history)) := .single hx
    cases hsub a c (List.mem_of_getElem? hhead) with
    | found path e hs hf hg hr =>
      refine .found (a :: path) e ((Search.solvesAmong_cons ..).mpr (.inl ⟨path, rfl, hs⟩)) ?_ hg
        (by simpa using hstep.trans hr)
      intro path' hs'
      rcases (Search.solvesAmong_cons ..).mp hs' with ⟨rest', rfl, hc⟩ | ⟨a', c', rest', rfl, hm, _⟩
      · rcases hf rest' hc with rfl | hlater
        · exact .inl rfl
        · exact .inr (.tail a hlater)
      · exact .inr (.head path rest' (hlt _ hm))
    | exhausted hs hb hr =>
      have hnext := law.resumes n history choices blocked k a c hn hhead
      refine ((ih (k + 1) hrest hsorted _ hnext).congr ?_ ?_).after (hstep.trans hr)
      · intro path
        rw [Search.solvesAmong_cons]
        exact (or_iff_right fun ⟨rest', _, hs'⟩ => hs rest' hs').symm
      · rw [Search.blocksAmong_cons]
        exact (or_iff_right hb).symm
    | blocked y hb hr hy =>
      exact .blocked y ((Search.blocksAmong_cons ..).mpr (.inl hb)) (hstep.trans hr) hy

/-- A lawful system searches every node below which all branches of the tree are finite. -/
theorem Lawful.ends (law : b.Lawful)
    (hsorted : ∀ n choices blocked, b.search n = .options choices blocked →
      choices.Pairwise fun x y => before x.1 y.1)
    {n : N} (hacc : Acc b.search.Child n) (history : List A) :
    b.Ends before (b.search.Solves n) (b.search.Blocks n) (b.enter n history) n history := by
  induction hacc generalizing history with
  | intro n _ ih =>
    cases hn : b.search n with
    | goal =>
      have hs := Search.solves_goal hn
      exact .found [] n ((hs []).mpr rfl) (fun path h => .inl ((hs path).mp h)) hn .refl
    | options choices blocked =>
      have hsub : ∀ a c, (a, c) ∈ choices → b.Ends before (b.search.Solves c) (b.search.Blocks c)
          (b.enter c (a :: history)) c (a :: history) :=
        fun a c hm => ih c ⟨a, choices, blocked, hn, hm⟩ (a :: history)
      have hend := law.ends_among hn hsub choices 0 rfl (hsorted n choices blocked hn) _
        (law.begins n history choices blocked hn)
      exact hend.congr (fun path => (Search.solves_options hn path).symm)
        (Search.blocks_options hn).symm

end Backtracker

end ContextFree
