import ContextFree.Proofs.Renaming.Runs

namespace ContextFree

open Function (Injective)

variable {V V' T T' : Type} {f : V → V'} {e : T → T'}

namespace TopDown

def Point.map (f : V → V') (e : T → T') : Point V T → Point V' T'
  | expand p rank => expand (p.map f e) rank
  | matched t => matched (e t)

theorem derivation_map (history : List (Point V T)) :
    derivation (history.map (Point.map f e)) = derivation history := by
  have hnumber : Point.number? ∘ Point.map f e = Point.number? := by
    funext point
    cases point <;> rfl
  rw [derivation, derivation, ← List.map_reverse, List.filterMap_map, hnumber]

theorem expand_map (c : Config V T) (p : Production V T) (rank : Nat) (older : List (Point V T))
    (rest : List (Symbol V T)) :
    expand (c.map (Point.map f e) f e) (p.map f e) rank (older.map (Point.map f e))
        (rest.map (Symbol.map f e)) =
      (expand c p rank older rest).map (Point.map f e) f e := by
  simp [expand, Configuration.map, Point.map, Production.map, Rule.map]

theorem matchFront_map [DecidableEq T] [DecidableEq T'] (he : Injective e) (c : Config V T) (t : T)
    (rest : List (Symbol V T)) (seen : Option T) :
    matchFront (c.map (Point.map f e) f e) (e t) (rest.map (Symbol.map f e)) (seen.map e) =
      (matchFront c t rest seen).map (Point.map f e) f e := by
  have hsame : seen.map e = some (e t) ↔ seen = some t := by
    rw [← Option.map_some, (Option.map_injective he).eq_iff]
  simp only [matchFront, hsame]
  split <;> rfl

variable [DecidableEq V] [DecidableEq V'] {byHead : Grouping V (Production V T)}
  {byHead' : Grouping V' (Production V' T')}

theorem backtrack_alike
    (hfind : ∀ v, byHead'.find (f v) = (byHead.find v).map (Production.map f e))
    (c : Config V T) :
    (backtrack byHead c).Alike (Point.map f e) f e
      (backtrack byHead' (c.map (Point.map f e) f e)) := by
  obtain ⟨mode, cursor, history, symbols⟩ := c
  cases history with
  | nil => exact .reject
  | cons point older =>
    cases point with
    | matched t => exact .enter ⟨mode, cursor - 1, older, .terminal t :: symbols⟩
    | expand p rank =>
      have halternatives : byHead'.find (p.map f e).head =
          (byHead.find p.head).map (Production.map f e) := hfind p.head
      have hrest : (symbols.map (Symbol.map f e)).drop (p.map f e).body.length =
          (symbols.drop p.body.length).map (Symbol.map f e) := by
        simp [Production.map, Rule.map]
      simp only [backtrack, Configuration.map, List.map_cons, Point.map, halternatives, hrest,
        List.getElem?_map]
      cases (byHead.find p.head)[rank + 1]? with
      | none =>
        exact .enter
          ⟨mode, cursor, older, .nonterminal p.head :: symbols.drop p.body.length⟩
      | some q => exact .of_enter (expand_map ⟨mode, cursor, .expand p rank :: older, symbols⟩ ..)

variable [DecidableEq T] [DecidableEq T']

theorem query_alike (he : Injective e)
    (hfind : ∀ v, byHead'.find (f v) = (byHead.find v).map (Production.map f e))
    (c : Config V T) :
    (query byHead c).Alike (Point.map f e) f e
      (query byHead' (c.map (Point.map f e) f e)) := by
  obtain ⟨mode, cursor, history, symbols⟩ := c
  cases symbols with
  | nil =>
    refine .look fun seen => ?_
    cases seen <;> rfl
  | cons s rest =>
    cases s with
    | terminal t => exact .look (matchFront_map he _ t rest)
    | nonterminal v =>
      simp only [query, Configuration.map, List.map_cons, Symbol.map, hfind, List.getElem?_map]
      cases (byHead.find v)[0]? with
      | none => exact .enter ⟨.backtracking, cursor, history, .nonterminal v :: rest⟩
      | some p => exact .of_enter (expand_map ⟨mode, cursor, history, .nonterminal v :: rest⟩ ..)

theorem machine_alike [Name V] [Name V'] [Name T] [Name T'] (hf : Injective f) (he : Injective e)
    (g : Grammar V T) (start : V) :
    (machine g start).Alike (Point.map f e) f e (machine (g.map f e) (f start)) where
  initial := rfl
  move := by
    intro c
    obtain ⟨mode, cursor, history, symbols⟩ := c
    cases mode with
    | querying => exact query_alike he (Grammar.find_byHead_map hf) ⟨_, cursor, history, symbols⟩
    | backtracking =>
      exact backtrack_alike (Grammar.find_byHead_map hf) ⟨_, cursor, history, symbols⟩
    | accepting =>
      simp only [machine, move, Configuration.map, derivation_map]
      exact .accept _

end TopDown

namespace BottomUp

def Point.map (f : V → V') (e : T → T') : Point V T → Point V' T'
  | shift => shift
  | reduce p => reduce (p.map f e)

theorem derivation_map (history : List (Point V T)) :
    derivation (history.map (Point.map f e)) = derivation history := by
  have hnumber : Point.number? ∘ Point.map f e = Point.number? := by
    funext point
    cases point <;> rfl
  rw [derivation, derivation, List.filterMap_map, hnumber]

theorem reduce_map (c : Config V T) (p : Production V T) (older : List (Point V T))
    (stack : List (Symbol V T)) :
    reduce (c.map (Point.map f e) f e) (p.map f e) (older.map (Point.map f e))
        (stack.map (Symbol.map f e)) =
      (reduce c p older stack).map (Point.map f e) f e := by
  simp [reduce, Configuration.map, Point.map, Production.map, Rule.map, Symbol.map]

theorem shiftOrUndo_map (c : Config V T) (older : List (Point V T)) (stack : List (Symbol V T))
    (seen : Option T) :
    shiftOrUndo (c.map (Point.map f e) f e) (older.map (Point.map f e))
        (stack.map (Symbol.map f e)) (seen.map e) =
      (shiftOrUndo c older stack seen).map (Point.map f e) f e := by
  cases seen <;> rfl

variable [DecidableEq V] [DecidableEq V'] [DecidableEq T] [DecidableEq T']

theorem find_byLast_map (hf : Injective f) (he : Injective e) (g : Grammar V T)
    (s : Symbol V T) :
    (byLast (g.map f e)).find (s.map f e) = ((byLast g).find s).map (Production.map f e) := by
  unfold byLast
  rw [← Grouping.find_ofList_map (Symbol.map_injective hf he), Grammar.map, List.filterMap_map,
    List.map_filterMap]
  congr 3
  funext p
  simp only [Function.comp, Production.map, Rule.map, List.getLast?_map, Option.map_map]
  rfl

theorem isPrefixOf_map {φ : Symbol V T → Symbol V' T'} (hφ : Injective φ)
    (front stack : List (Symbol V T)) :
    (front.map φ).isPrefixOf (stack.map φ) = front.isPrefixOf stack := by
  induction front generalizing stack with
  | nil => rfl
  | cons s front ih =>
    cases stack with
    | nil => rfl
    | cons s' stack =>
      have hsame : (φ s == φ s') = (s == s') := by
        rw [Bool.eq_iff_iff, beq_iff_eq, beq_iff_eq, hφ.eq_iff]
      simp only [List.map_cons, List.isPrefixOf, ih, hsame]

theorem nextReduction_map (hf : Injective f) (he : Injective e) (g : Grammar V T)
    (stack : List (Symbol V T)) (after : Nat) :
    nextReduction (byLast (g.map f e)) (stack.map (Symbol.map f e)) after =
      (nextReduction (byLast g) stack after).map (Production.map f e) := by
  cases stack with
  | nil => rfl
  | cons top stack =>
    simp only [nextReduction, List.map_cons]
    rw [find_byLast_map hf he, List.find?_map, ← List.map_cons]
    congr 2
    funext p
    simp only [Function.comp, Production.map, Rule.map, ← List.map_reverse,
      isPrefixOf_map (Symbol.map_injective hf he)]
    rfl

theorem query_alike (hf : Injective f) (he : Injective e) (g : Grammar V T) (start : V)
    (c : Config V T) :
    (query (byLast g) start c).Alike (Point.map f e) f e
      (query (byLast (g.map f e)) (f start) (c.map (Point.map f e) f e)) := by
  have hreduction : nextReduction (byLast (g.map f e)) (c.map (Point.map f e) f e).symbols 0 =
      (nextReduction (byLast g) c.symbols 0).map (Production.map f e) :=
    nextReduction_map hf he g c.symbols 0
  have hdone : (c.map (Point.map f e) f e).symbols = [.nonterminal (f start)] ↔
      c.symbols = [.nonterminal start] :=
    (Symbol.map_injective hf he).list_map.eq_iff (b := [.nonterminal start])
  -- Whether the stack holds just the start is asked of symbols, so a terminal of the same name does
  -- not count.
  simp only [query, hreduction, hdone]
  generalize nextReduction (byLast g) c.symbols 0 = reduction
  split
  · refine .look fun seen => ?_
    cases seen with
    | none => rfl
    | some t =>
      cases reduction with
      | none => rfl
      | some p => exact reduce_map c p c.history c.symbols
  · cases reduction with
    | none => exact .look (shiftOrUndo_map c c.history c.symbols)
    | some p => exact .of_enter (reduce_map c p c.history c.symbols)

theorem backtrack_alike (hf : Injective f) (he : Injective e) (g : Grammar V T)
    (c : Config V T) :
    (backtrack (byLast g) c).Alike (Point.map f e) f e
      (backtrack (byLast (g.map f e)) (c.map (Point.map f e) f e)) := by
  obtain ⟨mode, cursor, history, symbols⟩ := c
  cases history with
  | nil => exact .reject
  | cons point older =>
    cases point with
    | shift =>
      have hpop : (symbols.map (Symbol.map f e)).tail = symbols.tail.map (Symbol.map f e) :=
        List.map_tail.symm
      simp only [backtrack, Configuration.map, List.map_cons, Point.map, hpop]
      exact .enter ⟨mode, cursor - 1, older, symbols.tail⟩
    | reduce p =>
      have hstack : (p.map f e).body.reverse ++ (symbols.map (Symbol.map f e)).tail =
          (p.body.reverse ++ symbols.tail).map (Symbol.map f e) := by
        simp [Production.map, Rule.map, List.map_tail]
      simp only [backtrack, Configuration.map, List.map_cons, Point.map, hstack]
      generalize p.body.reverse ++ symbols.tail = stack
      have hnext : nextReduction (byLast (g.map f e)) (stack.map (Symbol.map f e))
          (p.map f e).number =
          (nextReduction (byLast g) stack p.number).map (Production.map f e) :=
        nextReduction_map hf he g stack p.number
      rw [hnext]
      cases nextReduction (byLast g) stack p.number with
      | none =>
        exact .look (shiftOrUndo_map ⟨mode, cursor, .reduce p :: older, symbols⟩ older stack)
      | some q => exact .of_enter (reduce_map ⟨mode, cursor, .reduce p :: older, symbols⟩ ..)

theorem machine_alike [Name V] [Name V'] [Name T] [Name T'] (hf : Injective f) (he : Injective e)
    (g : Grammar V T) (start : V) :
    (machine g start).Alike (Point.map f e) f e (machine (g.map f e) (f start)) where
  initial := rfl
  move := by
    intro c
    obtain ⟨mode, cursor, history, symbols⟩ := c
    cases mode with
    | querying => exact query_alike hf he g start ⟨_, cursor, history, symbols⟩
    | backtracking => exact backtrack_alike hf he g ⟨_, cursor, history, symbols⟩
    | accepting =>
      simp only [machine, move, Configuration.map, derivation_map]
      exact .accept _

end BottomUp

end ContextFree
