import ContextFree.Parse
import ContextFree.Proofs.Renaming.Grammar

namespace ContextFree

open Function (Injective)

variable {V V' T T' : Type} {f : V → V'} {e : T → T'}

namespace Tree

mutual

def map (f : V → V') (e : T → T') : Tree V T → Tree V' T'
  | node s ts => node (s.map f e) (mapAll f e ts)

def mapAll (f : V → V') (e : T → T') : List (Tree V T) → List (Tree V' T')
  | [] => []
  | t :: ts => map f e t :: mapAll f e ts

end

theorem mapAll_eq (ts : List (Tree V T)) : mapAll f e ts = ts.map (map f e) := by
  induction ts with
  | nil => rfl
  | cons t ts ih => rw [mapAll, List.map_cons, ih]

theorem map_node (s : Symbol V T) (ts : List (Tree V T)) :
    (node s ts).map f e = node (s.map f e) (ts.map (map f e)) := by
  rw [map, mapAll_eq]

theorem symbol_map (t : Tree V T) : (t.map f e).symbol = t.symbol.map f e := by
  cases t
  rw [map_node]
  rfl

theorem symbol_map_eq_iff (hf : Injective f) (he : Injective e) (t : Tree V T) (v : V) :
    (t.map f e).symbol = .nonterminal (f v) ↔ t.symbol = .nonterminal v := by
  rw [symbol_map]
  exact (Symbol.map_injective hf he).eq_iff (b := .nonterminal v)

section LeftParse

/-- If every nonterminal grows under two names alike, so does every body. -/
theorem growAll_map {grow : V → List Nat → Except ReplayError (Tree V T × List Nat)}
    {grow' : V' → List Nat → Except ReplayError (Tree V' T' × List Nat)}
    (hgrow : ∀ v parse, grow' (f v) parse = (grow v parse).map (Prod.map (map f e) id))
    (body : List (Symbol V T)) (parse : List Nat) :
    growAll grow' (body.map (Symbol.map f e)) parse =
      (growAll grow body parse).map (Prod.map (List.map (map f e)) id) := by
  induction body generalizing parse with
  | nil => rfl
  | cons s body ih =>
    cases s with
    | terminal t =>
      simp only [List.map_cons, Symbol.map, growAll, ih]
      cases growAll grow body parse <;> rfl
    | nonterminal v =>
      simp only [List.map_cons, Symbol.map, growAll, hgrow]
      cases grow v parse with
      | error error => rfl
      | ok grown =>
        simp only [Except.map, Prod.map, bind, Except.bind, id, ih]
        cases growAll grow body grown.2 <;> rfl

variable [DecidableEq V] [DecidableEq V']

theorem grow_map (hf : Injective f) (g : Grammar V T) (height : Nat) (v : V) (parse : List Nat) :
    grow (g.map f e) height (f v) parse =
      (grow g height v parse).map (Prod.map (map f e) id) := by
  induction height generalizing v parse with
  | zero => rfl
  | succ height ih =>
    cases parse with
    | nil => rfl
    | cons n parse =>
      rw [grow, grow, Grammar.production?_map]
      cases g.production? n with
      | none => rfl
      | some p =>
        simp only [Option.map_some, Production.map, Rule.map, hf.eq_iff, growAll_map ih]
        split
        · cases growAll (grow g height) p.body parse with
          | error error => rfl
          | ok grown =>
            simp only [Except.map, bind, Except.bind, Prod.map, pure, Except.pure, map_node]
            rfl
        · rfl

theorem ofLeftParse_map (hf : Injective f) (g : Grammar V T) (parse : List Nat) :
    ofLeftParse (g.map f e) parse = (ofLeftParse g parse).map (map f e) := by
  unfold ofLeftParse
  cases hstart : g.start with
  | none => simp [Grammar.map, hstart, Except.map]
  | some v =>
    have hgrow := grow_map (e := e) hf g parse.length v parse
    simp only [Grammar.map, hstart, Option.map_some] at hgrow ⊢
    rw [hgrow]
    rcases grow g parse.length v parse with error | ⟨t, left⟩
    · rfl
    · cases left <;> rfl

end LeftParse

section RightParse

variable [DecidableEq V] [DecidableEq V'] [DecidableEq T] [DecidableEq T']

theorem gather_map (hf : Injective f) (he : Injective e) (number : Nat)
    (body : List (Symbol V T)) (taken stack : List (Tree V T)) :
    gather number (body.map (Symbol.map f e)) (taken.map (map f e)) (stack.map (map f e)) =
      (gather number body taken stack).map
        (Prod.map (List.map (map f e)) (List.map (map f e))) := by
  induction body generalizing taken stack with
  | nil => rfl
  | cons s body ih =>
    cases s with
    | terminal t => exact ih (leaf t :: taken) stack
    | nonterminal v =>
      cases stack with
      | nil => rfl
      | cons t stack =>
        simp only [List.map_cons, Symbol.map, gather, symbol_map_eq_iff hf he]
        split
        · exact ih (t :: taken) stack
        · rfl

theorem assemble_map (hf : Injective f) (he : Injective e) (g : Grammar V T)
    (stack : List (Tree V T)) (number : Nat) :
    assemble (g.map f e) (stack.map (map f e)) number =
      (assemble g stack number).map (List.map (map f e)) := by
  unfold assemble
  rw [Grammar.production?_map]
  cases g.production? number with
  | none => rfl
  | some p =>
    have hgather := gather_map hf he number p.body.reverse [] stack
    simp only [Option.map_some, Production.map, Rule.map, List.map_reverse, List.map_nil]
      at hgather ⊢
    rw [hgather]
    cases gather number p.body.reverse [] stack with
    | error error => rfl
    | ok gathered =>
      simp only [Except.map, bind, Except.bind, Prod.map, pure, Except.pure, List.map_cons,
        map_node]
      rfl

theorem foldlM_assemble_map (hf : Injective f) (he : Injective e) (g : Grammar V T)
    (parse : List Nat) (stack : List (Tree V T)) :
    parse.foldlM (assemble (g.map f e)) (stack.map (map f e)) =
      (parse.foldlM (assemble g) stack).map (List.map (map f e)) := by
  induction parse generalizing stack with
  | nil => rfl
  | cons n parse ih =>
    rw [List.foldlM_cons, List.foldlM_cons, assemble_map hf he]
    cases assemble g stack n with
    | error error => rfl
    | ok stack' => exact ih stack'

theorem ofRightParse_map (hf : Injective f) (he : Injective e) (g : Grammar V T)
    (parse : List Nat) :
    ofRightParse (g.map f e) parse = (ofRightParse g parse).map (map f e) := by
  unfold ofRightParse
  cases hstart : g.start with
  | none => simp [Grammar.map, hstart, Except.map]
  | some v =>
    have hfold := foldlM_assemble_map hf he g parse []
    simp only [Grammar.map, hstart, Option.map_some, List.map_nil] at hfold ⊢
    rw [hfold]
    rcases parse.foldlM (assemble g) [] with error | (_ | ⟨t, _ | ⟨t', stack⟩⟩)
    · rfl
    · rfl
    · simp only [Except.map, bind, Except.bind, List.map_cons, List.map_nil,
        symbol_map_eq_iff hf he]
      split <;> rfl
    · rfl

end RightParse

end Tree

end ContextFree
