import ContextFree.Proofs.Decoding
import ContextFree.Proofs.Yield

namespace ContextFree

variable {V T : Type} {g : Grammar V T} {form form' back : List (Symbol V T)} {list rest : List Nat}
  {outcome : Except ReplayError (List T)}

/-- Growing a tree leaves no more numbers than there were. -/
theorem Tree.length_le_of_grow [DecidableEq V] {height : Nat} {v : V} {tree : Tree V T}
    (h : grow g height v list = .ok (tree, rest)) : rest.length ≤ list.length := by
  obtain ⟨d, _, _, rfl⟩ := grow_eq_ok h
  simp

namespace Grammar

variable [DecidableEq V]

/-- Rewrites the leftmost nonterminal by the listed productions, one after the other, to a word. -/
def rewrite (g : Grammar V T) : List (Symbol V T) → List Nat → Except ReplayError (List T)
  | [], [] => .ok []
  | [], n :: rest => .error (.trailing (n :: rest).length)
  | .terminal t :: form, list => (rewrite g form list).map (t :: ·)
  | .nonterminal _ :: _, [] => .error .incomplete
  | .nonterminal v :: form, n :: list =>
    match g.production? n with
    | none => .error (.unknownProduction n)
    | some p => if p.head = v then rewrite g (p.body ++ form) list else .error (.unexpectedHead n)
  termination_by form list => (list.length, form.length)

/-- Where leftmost rewriting comes to an end, with the outcome that it has there. -/
inductive Halted (g : Grammar V T) :
    List (Symbol V T) → List Nat → Except ReplayError (List T) → Prop
  | word (w : List T) : Halted g (w.map .terminal) [] (.ok w)
  | leftOver (w : List T) (n : Nat) (rest : List Nat) :
      Halted g (w.map .terminal) (n :: rest) (.error (.trailing (n :: rest).length))
  | short (w : List T) (v : V) (back : List (Symbol V T)) :
      Halted g (w.map .terminal ++ .nonterminal v :: back) [] (.error .incomplete)
  | unknown (w : List T) (v : V) (back : List (Symbol V T)) {n : Nat} (rest : List Nat)
      (hnone : ∀ p ∈ g.productions, p.number ≠ n) :
      Halted g (w.map .terminal ++ .nonterminal v :: back) (n :: rest)
        (.error (.unknownProduction n))
  | misplaced (w : List T) {v : V} (back : List (Symbol V T)) {p : Production V T}
      (rest : List Nat) (hp : p ∈ g.productions) (hhead : p.head ≠ v) :
      Halted g (w.map .terminal ++ .nonterminal v :: back) (p.number :: rest)
        (.error (.unexpectedHead p.number))

omit [DecidableEq V] in
/-- A terminal in front takes no part in what happens behind it. -/
theorem Halted.cons (t : T) (h : g.Halted form list outcome) :
    g.Halted (.terminal t :: form) list (outcome.map (t :: ·)) := by
  cases h with
  | word w => exact .word (t :: w)
  | leftOver w n rest => exact .leftOver (t :: w) n rest
  | short w v back => exact .short (t :: w) v back
  | unknown w v back rest hnone => exact .unknown (t :: w) v back rest hnone
  | misplaced w back rest hp hhead => exact .misplaced (t :: w) back rest hp hhead

theorem rewrite_word_append (w : List T) (form : List (Symbol V T)) (list : List Nat) :
    g.rewrite (w.map .terminal ++ form) list = (g.rewrite form list).map (w ++ ·) := by
  induction w with
  | nil =>
    rw [List.map_nil, List.nil_append]
    cases g.rewrite form list <;> rfl
  | cons t w ih =>
    rw [List.map_cons, List.cons_append, rewrite, ih]
    cases g.rewrite form list <;> rfl

/-- A production that may be applied is applied. -/
theorem LeftStep.rewrite_eq {n : Nat} (h : g.LeftStep n form form') (rest : List Nat) :
    g.rewrite form (n :: rest) = g.rewrite form' rest := by
  obtain ⟨w, back, p, hp, rfl, rfl, rfl⟩ := h
  rw [rewrite_word_append, rewrite, production?_number hp, List.append_assoc, rewrite_word_append]
  simp

theorem LeftParse.rewrite_eq {done : List Nat} (h : g.LeftParse done form form')
    (rest : List Nat) : g.rewrite form (done ++ rest) = g.rewrite form' rest := by
  induction h with
  | nil form => rfl
  | cons hs _ ih => rw [List.cons_append, hs.rewrite_eq, ih]

theorem Halted.rewrite_eq (h : g.Halted form list outcome) : g.rewrite form list = outcome := by
  cases h with
  | word w =>
    rw [← List.append_nil (w.map _), rewrite_word_append, rewrite]
    simp [Except.map]
  | leftOver w n rest =>
    rw [← List.append_nil (w.map _), rewrite_word_append, rewrite]
    rfl
  | short w v back =>
    rw [rewrite_word_append, rewrite]
    rfl
  | unknown w v back rest hnone =>
    rw [rewrite_word_append, rewrite, production?_eq_none.mpr hnone]
    rfl
  | misplaced w back rest hp hhead =>
    rw [rewrite_word_append, rewrite, production?_number hp]
    simp [hhead, Except.map]

/-- Rewriting applies a first part of a list and comes to an end behind it. -/
theorem exists_halted (g : Grammar V T) (form : List (Symbol V T)) (list : List Nat) :
    ∃ done rest form' outcome, list = done ++ rest ∧ g.LeftParse done form form' ∧
      g.Halted form' rest outcome := by
  -- The cases are those of what the string begins with and of what is left of the list.
  fun_induction rewrite g form list with
  | case1 => exact ⟨[], [], [], _, rfl, .nil _, .word []⟩
  | case2 n rest => exact ⟨[], n :: rest, [], _, rfl, .nil _, .leftOver [] n rest⟩
  | case3 t form list ih =>
    obtain ⟨done, rest, form', outcome, hlist, hparse, hhalted⟩ := ih
    have hbehind := hparse.context [t] []
    rw [List.append_nil, List.append_nil] at hbehind
    exact ⟨done, rest, .terminal t :: form', _, hlist, hbehind, hhalted.cons t⟩
  | case4 v form => exact ⟨[], [], _, _, rfl, .nil _, .short [] v form⟩
  | case5 v form n list hnone =>
    exact ⟨[], n :: list, _, _, rfl, .nil _, .unknown [] v form list (production?_eq_none.mp hnone)⟩
  | case6 form n list p hp ih =>
    obtain ⟨hin, rfl⟩ := production?_eq_some.mp hp
    obtain ⟨done, rest, form', outcome, rfl, hparse, hhalted⟩ := ih
    have hstep : g.LeftStep p.number (.nonterminal p.head :: form) (p.body ++ form) :=
      ⟨[], form, p, hin, rfl, rfl, rfl⟩
    exact ⟨p.number :: done, rest, form', outcome, rfl, .cons hstep hparse, hhalted⟩
  | case7 v form n list p hp hhead =>
    obtain ⟨hin, rfl⟩ := production?_eq_some.mp hp
    exact ⟨[], p.number :: list, _, _, rfl, .nil _, .misplaced [] form list hin hhead⟩

/-- The outcome of rewriting is read off where it comes to its end. -/
theorem rewrite_eq_iff :
    g.rewrite form list = outcome ↔ ∃ done rest form', list = done ++ rest ∧
      g.LeftParse done form form' ∧ g.Halted form' rest outcome := by
  constructor
  · rintro rfl
    obtain ⟨done, rest, form', outcome, rfl, hparse, hhalted⟩ := exists_halted g form list
    rw [hparse.rewrite_eq, hhalted.rewrite_eq]
    exact ⟨done, rest, form', rfl, hparse, hhalted⟩
  · intro h
    obtain ⟨done, rest, form', rfl, hparse, hhalted⟩ := h
    rw [hparse.rewrite_eq, hhalted.rewrite_eq]

/-- The trees of a body grow as the body is rewritten, whatever is pending behind it. -/
theorem rewrite_growAll {height : Nat}
    {grow : V → List Nat → Except ReplayError (Tree V T × List Nat)}
    (hgrow : ∀ v parse back, parse.length ≤ height →
      g.rewrite (.nonterminal v :: back) parse =
        (grow v parse).bind fun r => (g.rewrite back r.2).map (r.1.leaves ++ ·))
    (hrest : ∀ v parse tree rest, grow v parse = .ok (tree, rest) → rest.length ≤ parse.length)
    (body back : List (Symbol V T)) (hheight : list.length ≤ height) :
    g.rewrite (body ++ back) list =
      (Tree.growAll grow body list).bind fun r =>
        (g.rewrite back r.2).map (Tree.leavesOf r.1 ++ ·) := by
  induction body generalizing list with
  | nil =>
    simp only [Tree.growAll, List.nil_append, Except.bind, Tree.leavesOf]
    cases g.rewrite back list <;> rfl
  | cons s body ih =>
    cases s with
    | terminal t =>
      rw [List.cons_append, rewrite, ih hheight, Tree.growAll]
      cases Tree.growAll grow body list with
      | error e => rfl
      | ok r =>
        simp only [bind, Except.bind, pure, Except.pure, Tree.leaf, Tree.leavesOf]
        cases g.rewrite back r.2 <;> rfl
    | nonterminal v =>
      rw [List.cons_append, hgrow v list _ hheight, Tree.growAll]
      cases hfirst : grow v list with
      | error e => rfl
      | ok r =>
        have hle := hrest v list r.1 r.2 hfirst
        simp only [bind, Except.bind]
        rw [ih (Nat.le_trans hle hheight)]
        cases Tree.growAll grow body r.2 with
        | error e => rfl
        | ok r' =>
          have hleaves : Tree.leavesOf (r.1 :: r'.1) = r.1.leaves ++ Tree.leavesOf r'.1 :=
            Tree.leavesOf_append [r.1] r'.1
          simp only [Except.bind, pure, Except.pure, hleaves]
          cases g.rewrite back r'.2 <;> simp [Except.map]

/-- A tree grows as its nonterminal is rewritten, if the height suffices for the whole list. -/
theorem rewrite_grow (height : Nat) (v : V) (list : List Nat) (back : List (Symbol V T))
    (hheight : list.length ≤ height) :
    g.rewrite (.nonterminal v :: back) list =
      (Tree.grow g height v list).bind fun r => (g.rewrite back r.2).map (r.1.leaves ++ ·) := by
  induction height generalizing v list back with
  | zero =>
    obtain rfl := List.length_eq_zero_iff.mp (Nat.le_zero.mp hheight)
    rw [rewrite, Tree.grow]
    rfl
  | succ height ih =>
    cases list with
    | nil =>
      rw [rewrite, Tree.grow]
      rfl
    | cons n list =>
      rw [rewrite, Tree.grow]
      cases g.production? n with
      | none => rfl
      | some p =>
        by_cases hhead : p.head = v
        · have hbody := rewrite_growAll ih (fun _ _ _ _ => Tree.length_le_of_grow) p.body back
            (Nat.le_of_succ_le_succ hheight)
          simp only [hhead, if_true, hbody]
          cases Tree.growAll (Tree.grow g height) p.body list with
          | error e => rfl
          | ok r => simp [bind, Except.bind, pure, Except.pure, Tree.leaves, Tree.leavesOf]
        · simp only [hhead, if_false]
          rfl

/-- The replay of a left parse, as far as the leaves tell, is leftmost rewriting of the start. -/
theorem map_leaves_ofLeftParse {start : V} (hstart : g.start = some start) (list : List Nat) :
    (Tree.ofLeftParse g list).map Tree.leaves = g.rewrite [.nonterminal start] list := by
  rw [rewrite_grow list.length start list [] (Nat.le_refl _), Tree.ofLeftParse, hstart]
  dsimp only
  cases Tree.grow g list.length start list with
  | error e => rfl
  | ok r =>
    obtain ⟨tree, rest⟩ := r
    cases rest with
    | nil => simp [Except.bind, Except.map, rewrite]
    | cons n rest => simp [Except.bind, Except.map, rewrite]

end Grammar

/-- Rewriting the leftmost nonterminal of the start by the listed productions settles the replay of
a list as a left parse. The replay fails at the first number, met with a nonterminal left, that is
not the number of a production, or not of one for the leftmost nonterminal; it fails at the end of
the list if a nonterminal is left then; it fails with the count of what follows the numbers that lead
to a word; and it succeeds if the whole list leads to a word, which is then at the leaves. -/
theorem Tree.ofLeftParse_classified [DecidableEq V] {start : V} (hstart : g.start = some start)
    (list : List Nat) :
    (∀ n, ofLeftParse g list = .error (.unknownProduction n) ↔
      ∃ (done rest : List Nat) (w : List T) (v : V) (back : List (Symbol V T)),
        list = done ++ n :: rest ∧
        g.LeftParse done [.nonterminal start] (w.map .terminal ++ .nonterminal v :: back) ∧
        ∀ p ∈ g.productions, p.number ≠ n) ∧
    (∀ n, ofLeftParse g list = .error (.unexpectedHead n) ↔
      ∃ (done rest : List Nat) (w : List T) (v : V) (back : List (Symbol V T)),
        list = done ++ n :: rest ∧
        g.LeftParse done [.nonterminal start] (w.map .terminal ++ .nonterminal v :: back) ∧
        ∃ p ∈ g.productions, p.number = n ∧ p.head ≠ v) ∧
    (ofLeftParse g list = .error .incomplete ↔
      ∃ (w : List T) (v : V) (back : List (Symbol V T)),
        g.LeftParse list [.nonterminal start] (w.map .terminal ++ .nonterminal v :: back)) ∧
    (∀ k, ofLeftParse g list = .error (.trailing k) ↔
      ∃ (done rest : List Nat) (w : List T), list = done ++ rest ∧ rest.length = k ∧ 0 < k ∧
        g.LeftParse done [.nonterminal start] (w.map .terminal)) ∧
    (∀ w : List T, (∃ tree, ofLeftParse g list = .ok tree ∧ tree.leaves = w) ↔
      g.LeftParse list [.nonterminal start] (w.map .terminal)) ∧
    ofLeftParse g list ≠ .error .noStart ∧ ofLeftParse g list ≠ .error .wrongRoot := by
  have herror : ∀ e, ofLeftParse g list = .error e ↔
      ∃ done rest form, list = done ++ rest ∧ g.LeftParse done [.nonterminal start] form ∧
        g.Halted form rest (.error e) := by
    intro e
    rw [← Grammar.rewrite_eq_iff, ← Grammar.map_leaves_ofLeftParse hstart]
    cases ofLeftParse g list <;> simp [Except.map]
  have hok : ∀ w, (∃ tree, ofLeftParse g list = .ok tree ∧ tree.leaves = w) ↔
      ∃ done rest form, list = done ++ rest ∧ g.LeftParse done [.nonterminal start] form ∧
        g.Halted form rest (.ok w) := by
    intro w
    rw [← Grammar.rewrite_eq_iff, ← Grammar.map_leaves_ofLeftParse hstart]
    cases ofLeftParse g list <;> simp [Except.map]
  simp only [ne_eq, herror, hok]
  refine ⟨?unknown, ?misplaced, ?short, ?leftOver, ?word, ?noStart, ?wrongRoot⟩
  case unknown =>
    intro n
    constructor
    · rintro ⟨done, _, _, rfl, hparse, hhalted⟩
      cases hhalted with
      | unknown w v back rest hnone => exact ⟨done, rest, w, v, back, rfl, hparse, hnone⟩
    · rintro ⟨done, rest, w, v, back, rfl, hparse, hnone⟩
      exact ⟨done, n :: rest, _, rfl, hparse, .unknown w v back rest hnone⟩
  case misplaced =>
    intro n
    constructor
    · rintro ⟨done, _, _, rfl, hparse, hhalted⟩
      cases hhalted with
      | misplaced w back rest hp hhead =>
        exact ⟨done, rest, w, _, back, rfl, hparse, _, hp, rfl, hhead⟩
    · rintro ⟨done, rest, w, v, back, rfl, hparse, p, hp, rfl, hhead⟩
      exact ⟨done, p.number :: rest, _, rfl, hparse, .misplaced w back rest hp hhead⟩
  case short =>
    constructor
    · rintro ⟨done, _, _, rfl, hparse, hhalted⟩
      cases hhalted with
      | short w v back => exact ⟨w, v, back, by rwa [List.append_nil]⟩
    · rintro ⟨w, v, back, hparse⟩
      exact ⟨list, [], _, (List.append_nil list).symm, hparse, .short w v back⟩
  case leftOver =>
    intro k
    constructor
    · rintro ⟨done, _, _, rfl, hparse, hhalted⟩
      cases hhalted with
      | leftOver w n rest => exact ⟨done, n :: rest, w, rfl, rfl, Nat.succ_pos _, hparse⟩
    · rintro ⟨done, rest, w, rfl, rfl, hpos, hparse⟩
      obtain ⟨n, rest, rfl⟩ := List.exists_cons_of_length_pos hpos
      exact ⟨done, n :: rest, _, rfl, hparse, .leftOver w n rest⟩
  case word =>
    intro w
    constructor
    · rintro ⟨done, _, _, rfl, hparse, hhalted⟩
      generalize hword : (Except.ok w : Except ReplayError (List T)) = outcome at hhalted
      cases hhalted with
      | word w =>
        cases hword
        rwa [List.append_nil]
      | _ => cases hword
    · intro hparse
      exact ⟨list, [], _, (List.append_nil list).symm, hparse, .word w⟩
  case noStart =>
    rintro ⟨_, _, _, _, _, hhalted⟩
    cases hhalted
  case wrongRoot =>
    rintro ⟨_, _, _, _, _, hhalted⟩
    cases hhalted

/-- A list may go wrong at a number, stop short, run on, or be a left parse. -/
theorem Tree.ofLeftParse_classified_twins :
    twins.start = some 'S' ∧
      (∃ (done rest : List Nat) (w : List Char) (v : Char) (back : List (Symbol Char Char)),
        [1, 2, 7, 3] = done ++ 7 :: rest ∧
        twins.LeftParse done [.nonterminal 'S'] (w.map .terminal ++ .nonterminal v :: back) ∧
        ∀ p ∈ twins.productions, p.number ≠ 7) ∧
      (∃ (done rest : List Nat) (w : List Char) (v : Char) (back : List (Symbol Char Char)),
        [1, 2, 1, 7] = done ++ 1 :: rest ∧
        twins.LeftParse done [.nonterminal 'S'] (w.map .terminal ++ .nonterminal v :: back) ∧
        ∃ p ∈ twins.productions, p.number = 1 ∧ p.head ≠ v) ∧
      (∃ (w : List Char) (v : Char) (back : List (Symbol Char Char)),
        twins.LeftParse [1, 2] [.nonterminal 'S'] (w.map .terminal ++ .nonterminal v :: back)) ∧
      (∃ (done rest : List Nat) (w : List Char),
        [1, 4, 2, 7, 1] = done ++ rest ∧ rest.length = 2 ∧ 0 < 2 ∧
        twins.LeftParse done [.nonterminal 'S'] (w.map .terminal)) ∧
      twins.LeftParse [1, 4, 2] [.nonterminal 'S'] [.terminal 'a'] := by
  have hstart : twins.start = some 'S' := rfl
  obtain ⟨hunknown, _⟩ := ofLeftParse_classified hstart [1, 2, 7, 3]
  obtain ⟨_, hmisplaced, _⟩ := ofLeftParse_classified hstart [1, 2, 1, 7]
  obtain ⟨_, _, hshort, _⟩ := ofLeftParse_classified hstart [1, 2]
  obtain ⟨_, _, _, hleftOver, _⟩ := ofLeftParse_classified hstart [1, 4, 2, 7, 1]
  obtain ⟨_, _, _, _, hword, _⟩ := ofLeftParse_classified hstart [1, 4, 2]
  have hleaves : (node (.nonterminal 'S') [node (.nonterminal 'E') [],
      node (.nonterminal 'E') [leaf 'a']] : Tree Char Char).leaves = ['a'] := by
    simp [leaves, leavesOf, leaf]
  exact ⟨hstart, (hunknown 7).mp rfl, (hmisplaced 1).mp rfl, hshort.mp rfl, (hleftOver 2).mp rfl,
    (hword ['a']).mp ⟨_, rfl, hleaves⟩⟩

end ContextFree
