import ContextFree.Proofs.Text.Exact

namespace ContextFree

/-- What a lexeme leads to: the rules that it completes and the place behind it, in which no
position is kept. -/
def Place.next : Place → Lexeme → Option (List (Rule String Char) × Place)
  | .before, .lineEnd => some ([], .before)
  | .before, .nonterminal v => some ([], .behindHead v 0)
  | .behindHead v _, .arrow => some ([], .inBody v [])
  | .inBody v body, .nonterminal w => some ([], .inBody v (.nonterminal w :: body))
  | .inBody v body, .terminal c => some ([], .inBody v (.terminal c :: body))
  | .inBody v body, .bar => some ([⟨v, body.reverse⟩], .inBody v [])
  | .inBody v body, .lineEnd => some ([⟨v, body.reverse⟩], .before)
  | _, _ => none

/-- The rules that the end of a text completes. -/
def Place.finish : Place → Option (List (Rule String Char))
  | .before => some []
  | .behindHead _ _ => none
  | .inBody v body => some [⟨v, body.reverse⟩]

/-- The rules that lexemes behind a place spell. -/
def Place.spelled? (place : Place) : List Lexeme → Option (List (Rule String Char))
  | [] => place.finish
  | l :: ls => (place.next l).bind fun r => (r.2.spelled? ls).map (r.1 ++ ·)

namespace Place

variable {place place' : Place} {l : Lexeme} {ls ls' ends : List Lexeme}
  {rules : List (Rule String Char)}

theorem spelled?_behindHead (v : String) (stop stop' : Nat) (ls : List Lexeme) :
    (behindHead v stop).spelled? ls = (behindHead v stop').spelled? ls := by
  cases ls with
  | nil => rfl
  | cons l ls => cases l <;> rfl

theorem toOption_map {ε α β : Type} (f : α → β) (r : Except ε α) :
    (r.map f).toOption = r.toOption.map f := by
  cases r <;> rfl

/-- The rules that tokens stand for are those that their lexemes spell. -/
theorem toOption_readRules (place : Place) (ts : List Token) :
    (readRules place ts).toOption = place.spelled? (ts.map Token.lexeme) := by
  induction ts generalizing place with
  | nil => cases place <;> rfl
  | cons t ts ih =>
    rw [List.map_cons, spelled?]
    cases place with
    | before =>
      cases ht : t.lexeme with
      | lineEnd => simp [readRules, ht, next, ih]
      | nonterminal v => simp [readRules, ht, next, ih, spelled?_behindHead v t.stop 0]
      | terminal _ | arrow | bar | invalid => simp [readRules, ht, next, Except.toOption]
    | behindHead v stop =>
      cases ht : t.lexeme with
      | arrow => simp [readRules, ht, next, ih]
      | nonterminal _ | terminal _ | bar | lineEnd | invalid =>
        simp [readRules, ht, next, Except.toOption]
    | inBody v body =>
      cases ht : t.lexeme with
      | nonterminal w => simp [readRules, ht, next, ih]
      | terminal c => simp [readRules, ht, next, ih]
      | bar => simp [readRules, ht, next, toOption_map, ih]
      | lineEnd => simp [readRules, ht, next, toOption_map, ih]
      | arrow | invalid => simp [readRules, ht, next, Except.toOption]

theorem spelled?_cons (place : Place) (l : Lexeme) (ls : List Lexeme) :
    place.spelled? (l :: ls) =
      (place.next l).bind fun r => (r.2.spelled? ls).map (r.1 ++ ·) := rfl

theorem spelled?_eq_of_suffix (h : ∀ place : Place, place.spelled? ls = place.spelled? ls')
    (front : List Lexeme) (place : Place) :
    place.spelled? (front ++ ls) = place.spelled? (front ++ ls') := by
  induction front generalizing place with
  | nil => exact h place
  | cons l front ih => simp only [List.cons_append, spelled?_cons, ih]

/-- No rule is spelled by an invalid lexeme. -/
theorem valid_of_spelled? (h : place.spelled? ls = some rules) : ∀ l ∈ ls, l ≠ .invalid := by
  induction ls generalizing place rules with
  | nil => exact fun l hl => False.elim (List.not_mem_nil hl)
  | cons l ls ih =>
    obtain ⟨r, hnext, hrest⟩ := Option.bind_eq_some_iff.mp h
    obtain ⟨rules', hrules, _⟩ := Option.map_eq_some_iff.mp hrest
    refine List.forall_mem_cons.mpr ⟨?_, ih hrules⟩
    rintro rfl
    cases place <;> cases hnext

section LineEnds

variable (hends : ∀ l ∈ ends, l = .lineEnd)

include hends

/-- Line ends in front of a rule make no difference. -/
theorem spelled?_lineEnds (ls : List Lexeme) :
    before.spelled? (ends ++ ls) = before.spelled? ls := by
  induction ends with
  | nil => rfl
  | cons l ends ih =>
    obtain ⟨rfl, hmore⟩ := List.forall_mem_cons.mp hends
    rw [List.cons_append, spelled?_cons, next, Option.bind_some, ih hmore]
    cases before.spelled? ls <;> rfl

/-- Line ends behind another one make no difference. -/
theorem spelled?_lineEnd_lineEnds (place : Place) (ls : List Lexeme) :
    place.spelled? (.lineEnd :: (ends ++ ls)) = place.spelled? (.lineEnd :: ls) := by
  rw [spelled?_cons, spelled?_cons]
  cases place with
  | before => exact congrArg (Option.map _) (spelled?_lineEnds hends ls)
  | behindHead v stop => rfl
  | inBody v body => exact congrArg (Option.map _) (spelled?_lineEnds hends ls)

/-- Line ends at the end of a text make no difference. -/
theorem spelled?_append_lineEnds (h : place.spelled? ls = some rules) :
    place.spelled? (ls ++ ends) = some rules := by
  induction ls generalizing place rules with
  | nil =>
    cases ends with
    | nil => exact h
    | cons l ends =>
      obtain ⟨rfl, hmore⟩ := List.forall_mem_cons.mp hends
      have hnil := spelled?_lineEnd_lineEnds hmore place []
      rw [List.append_nil] at hnil
      rw [List.nil_append, hnil]
      cases place with
      | before => exact h
      | behindHead v stop => cases h
      | inBody v body => exact h
  | cons l ls ih =>
    obtain ⟨r, hnext, hrest⟩ := Option.bind_eq_some_iff.mp h
    obtain ⟨rules', hrules, rfl⟩ := Option.map_eq_some_iff.mp hrest
    rw [List.cons_append, spelled?_cons, hnext, Option.bind_some, ih hrules, Option.map_some]

end LineEnds

end Place

end ContextFree
