import ContextFree.Grammar.Basic
import ContextFree.Proofs.Steps

namespace ContextFree

open Relation

variable {V T : Type}

namespace Grammar

/-- The production with a number replaces a nonterminal that stands between two strings. -/
def Replaces (g : Grammar V T) (number : Nat) (front back : List (Symbol V T))
    (form form' : List (Symbol V T)) : Prop :=
  ∃ p ∈ g.productions, p.number = number ∧
    form = front ++ .nonterminal p.head :: back ∧ form' = front ++ p.body ++ back

/-- Some production replaces some nonterminal. -/
def Rewrites (g : Grammar V T) (form form' : List (Symbol V T)) : Prop :=
  ∃ number front back, g.Replaces number front back form form'

/-- Rewriting any number of times. -/
def Derives (g : Grammar V T) : List (Symbol V T) → List (Symbol V T) → Prop :=
  ReflTransGen g.Rewrites

/-- The production with a number replaces the leftmost nonterminal. -/
def LeftStep (g : Grammar V T) (number : Nat) (form form' : List (Symbol V T)) : Prop :=
  ∃ (w : List T) (back : List (Symbol V T)), g.Replaces number (w.map .terminal) back form form'

/-- The production with a number replaces the rightmost nonterminal. -/
def RightStep (g : Grammar V T) (number : Nat) (form form' : List (Symbol V T)) : Prop :=
  ∃ (front : List (Symbol V T)) (w : List T), g.Replaces number front (w.map .terminal) form form'

/-- The listed productions, applied in order to the leftmost nonterminal, lead from one string to
another. -/
def LeftParse (g : Grammar V T) : List Nat → List (Symbol V T) → List (Symbol V T) → Prop :=
  Steps g.LeftStep

/-- The listed productions, applied in order to the rightmost nonterminal, lead from one string to
another. -/
def RightParse (g : Grammar V T) : List Nat → List (Symbol V T) → List (Symbol V T) → Prop :=
  Steps g.RightStep

/-- The left parses of a word from a string, by what the string begins with. -/
inductive Parses (g : Grammar V T) : List Nat → List (Symbol V T) → List T → Prop
  | nil : Parses g [] [] []
  | terminal {numbers : List Nat} {form : List (Symbol V T)} {w : List T} (t : T) :
      Parses g numbers form w → Parses g numbers (.terminal t :: form) (t :: w)
  | nonterminal {numbers : List Nat} {form : List (Symbol V T)} {w : List T}
      {p : Production V T} (hp : p ∈ g.productions) :
      Parses g numbers (p.body ++ form) w →
        Parses g (p.number :: numbers) (.nonterminal p.head :: form) w

/-- A string of symbols yields a word if each symbol yields its own part: a terminal itself, a
nonterminal what one of its bodies yields. -/
inductive Yields (g : Grammar V T) : List (Symbol V T) → List T → Prop
  | nil : Yields g [] []
  | terminal {form : List (Symbol V T)} {w : List T} (t : T) :
      Yields g form w → Yields g (.terminal t :: form) (t :: w)
  | nonterminal {form : List (Symbol V T)} {x y : List T} {p : Production V T}
      (hp : p ∈ g.productions) :
      Yields g p.body x → Yields g form y → Yields g (.nonterminal p.head :: form) (x ++ y)

variable {g : Grammar V T}

theorem LeftStep.rewrites {n : Nat} {form form' : List (Symbol V T)} (h : g.LeftStep n form form') :
    g.Rewrites form form' := by
  obtain ⟨w, back, hr⟩ := h
  exact ⟨n, _, back, hr⟩

theorem RightStep.rewrites {n : Nat} {form form' : List (Symbol V T)}
    (h : g.RightStep n form form') : g.Rewrites form form' := by
  obtain ⟨front, w, hr⟩ := h
  exact ⟨n, front, _, hr⟩

/-- Rewriting can be done between any two strings. -/
theorem Rewrites.context (front back : List (Symbol V T)) {form form' : List (Symbol V T)}
    (h : g.Rewrites form form') : g.Rewrites (front ++ form ++ back) (front ++ form' ++ back) := by
  obtain ⟨n, front', back', p, hp, hn, rfl, rfl⟩ := h
  exact ⟨n, front ++ front', back' ++ back, p, hp, hn, by simp, by simp⟩

theorem rewrites_body {p : Production V T} (hp : p ∈ g.productions) :
    g.Rewrites [.nonterminal p.head] p.body :=
  ⟨p.number, [], [], p, hp, rfl, rfl, by simp⟩

/-- A nonterminal is rewritten into one of its bodies. -/
theorem Rewrites.of_nonterminal {v : V} {form : List (Symbol V T)}
    (h : g.Rewrites [.nonterminal v] form) : ∃ p ∈ g.productions, p.head = v ∧ form = p.body := by
  obtain ⟨n, front, back, p, hp, _, hform, rfl⟩ := h
  cases front with
  | nil =>
    cases hform
    exact ⟨p, hp, rfl, by simp⟩
  | cons s front => simp at hform

theorem LeftParse.derives {numbers : List Nat} {form form' : List (Symbol V T)}
    (h : g.LeftParse numbers form form') : g.Derives form form' :=
  h.reflTransGen fun _ _ _ hs => hs.rewrites

theorem RightParse.derives {numbers : List Nat} {form form' : List (Symbol V T)}
    (h : g.RightParse numbers form form') : g.Derives form form' :=
  h.reflTransGen fun _ _ _ hs => hs.rewrites

/-- A left step remains one behind terminals and in front of anything. -/
theorem LeftStep.context (w : List T) (back : List (Symbol V T)) {n : Nat}
    {form form' : List (Symbol V T)} (h : g.LeftStep n form form') :
    g.LeftStep n (w.map .terminal ++ form ++ back) (w.map .terminal ++ form' ++ back) := by
  obtain ⟨x, back', p, hp, hn, rfl, rfl⟩ := h
  exact ⟨w ++ x, back' ++ back, p, hp, hn, by simp, by simp⟩

theorem LeftParse.context (w : List T) (back : List (Symbol V T)) {numbers : List Nat}
    {form form' : List (Symbol V T)} (h : g.LeftParse numbers form form') :
    g.LeftParse numbers (w.map .terminal ++ form ++ back) (w.map .terminal ++ form' ++ back) := by
  have hmap := Steps.map id (fun form => w.map .terminal ++ form ++ back)
    (fun _ _ _ hs => LeftStep.context w back hs) h
  rwa [List.map_id] at hmap

theorem parses_word (w : List T) : g.Parses [] (w.map .terminal) w := by
  induction w with
  | nil => exact .nil
  | cons t w ih => exact .terminal t ih

theorem Parses.word_append {numbers : List Nat} {form : List (Symbol V T)} {w : List T}
    (x : List T) (h : g.Parses numbers (x.map .terminal ++ form) w) :
    ∃ y, w = x ++ y ∧ g.Parses numbers form y := by
  induction x generalizing w with
  | nil => exact ⟨w, rfl, h⟩
  | cons t x ih =>
    cases h with
    | terminal _ h =>
      obtain ⟨y, rfl, hy⟩ := ih h
      exact ⟨y, rfl, hy⟩

theorem Parses.of_word_append {numbers : List Nat} {form : List (Symbol V T)} {y : List T}
    (x : List T) (h : g.Parses numbers form y) :
    g.Parses numbers (x.map .terminal ++ form) (x ++ y) := by
  induction x with
  | nil => exact h
  | cons t x ih => exact .terminal t ih

theorem Parses.append {numbers numbers' : List Nat} {form form' : List (Symbol V T)} {x y : List T}
    (h : g.Parses numbers form x) (h' : g.Parses numbers' form' y) :
    g.Parses (numbers ++ numbers') (form ++ form') (x ++ y) := by
  induction h with
  | nil => exact h'
  | terminal t _ ih => exact .terminal t ih
  | nonterminal hp _ ih => exact .nonterminal hp (by simpa using ih)

/-- The left parses of a word are its parses by what a string begins with. -/
theorem leftParse_iff_parses {numbers : List Nat} {form : List (Symbol V T)} {w : List T} :
    g.LeftParse numbers form (w.map .terminal) ↔ g.Parses numbers form w := by
  constructor
  · intro h
    generalize hw : w.map Symbol.terminal = form' at h
    induction h with
    | nil form =>
      rw [← hw]
      exact parses_word w
    | cons hs _ ih =>
      obtain ⟨x, back, p, hp, rfl, rfl, rfl⟩ := hs
      obtain ⟨y, rfl, hy⟩ := Parses.word_append x (by simpa using ih hw)
      exact (Parses.nonterminal hp hy).of_word_append x
  · intro h
    induction h with
    | nil => exact .nil _
    | terminal t _ ih => simpa using ih.context [t] []
    | @nonterminal _ form _ p hp _ ih => exact .cons ⟨[], form, p, hp, rfl, rfl, rfl⟩ ih

theorem yields_word (w : List T) : g.Yields (w.map .terminal) w := by
  induction w with
  | nil => exact .nil
  | cons t w ih => exact .terminal t ih

theorem Yields.append {form form' : List (Symbol V T)} {x y : List T} (h : g.Yields form x)
    (h' : g.Yields form' y) : g.Yields (form ++ form') (x ++ y) := by
  induction h with
  | nil => exact h'
  | terminal t _ ih => exact .terminal t ih
  | nonterminal hp hbody _ _ ih =>
    rw [List.append_assoc]
    exact .nonterminal hp hbody ih

theorem Yields.split {form form' : List (Symbol V T)} {w : List T}
    (h : g.Yields (form ++ form') w) :
    ∃ x y, w = x ++ y ∧ g.Yields form x ∧ g.Yields form' y := by
  induction form generalizing w with
  | nil => exact ⟨[], w, rfl, .nil, h⟩
  | cons s form ih =>
    cases h with
    | terminal t h =>
      obtain ⟨x, y, rfl, hx, hy⟩ := ih h
      exact ⟨t :: x, y, rfl, .terminal t hx, hy⟩
    | nonterminal hp hbody h =>
      obtain ⟨x, y, rfl, hx, hy⟩ := ih h
      exact ⟨_, y, (List.append_assoc ..).symm, .nonterminal hp hbody hx, hy⟩

/-- What a string yields behind a rewriting, it yields before. -/
theorem Rewrites.yields {form form' : List (Symbol V T)} {w : List T} (h : g.Rewrites form form')
    (hw : g.Yields form' w) : g.Yields form w := by
  obtain ⟨_, front, back, p, hp, _, rfl, rfl⟩ := h
  obtain ⟨_, z, rfl, hxy, hz⟩ := hw.split
  obtain ⟨x, y, rfl, hx, hy⟩ := hxy.split
  rw [List.append_assoc]
  exact hx.append (.nonterminal hp hy hz)

theorem Derives.yields {form : List (Symbol V T)} {w : List T}
    (h : g.Derives form (w.map .terminal)) : g.Yields form w := by
  induction h using ReflTransGen.head_induction_on with
  | refl => exact yields_word w
  | head hstep _ ih => exact hstep.yields ih

theorem Yields.parses {form : List (Symbol V T)} {w : List T} (h : g.Yields form w) :
    ∃ numbers, g.Parses numbers form w := by
  induction h with
  | nil => exact ⟨[], .nil⟩
  | terminal t _ ih =>
    obtain ⟨numbers, hn⟩ := ih
    exact ⟨numbers, .terminal t hn⟩
  | nonterminal hp _ _ ihbody ih =>
    obtain ⟨numbers, hn⟩ := ihbody
    obtain ⟨numbers', hn'⟩ := ih
    exact ⟨_, .nonterminal hp (hn.append hn')⟩

theorem Yields.derives {form : List (Symbol V T)} {w : List T} (h : g.Yields form w) :
    g.Derives form (w.map .terminal) := by
  obtain ⟨numbers, hparses⟩ := h.parses
  exact (leftParse_iff_parses.mpr hparses).derives

/-- A word can be derived exactly if it has a left parse. -/
theorem derives_iff_leftParse {form : List (Symbol V T)} {w : List T} :
    g.Derives form (w.map .terminal) ↔ ∃ numbers, g.LeftParse numbers form (w.map .terminal) := by
  constructor
  · intro h
    obtain ⟨numbers, hn⟩ := h.yields.parses
    exact ⟨numbers, leftParse_iff_parses.mpr hn⟩
  · intro h
    obtain ⟨numbers, hn⟩ := h
    exact hn.derives

end Grammar

end ContextFree
