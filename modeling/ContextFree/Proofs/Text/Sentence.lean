import ContextFree.Text.Reading

namespace ContextFree

def Lexeme.ofSymbol : Symbol String Char → Lexeme
  | .nonterminal v => .nonterminal v
  | .terminal c => .terminal c

def LineEnds (ts : List Token) : Prop :=
  ∀ t ∈ ts, t.lexeme = .lineEnd

/-- The tokens spell the symbols of a body. -/
def Spells (ts : List Token) (body : List (Symbol String Char)) : Prop :=
  ts.map Token.lexeme = body.map Lexeme.ofSymbol

/-- Bodies with bars between them. -/
inductive Bodies : List Token → List (List (Symbol String Char)) → Prop
  | one {ts : List Token} {body : List (Symbol String Char)} : Spells ts body → Bodies ts [body]
  | more {ts ts' : List Token} {bar : Token} {bodies : List (List (Symbol String Char))}
      {body : List (Symbol String Char)} :
      Bodies ts bodies → bar.lexeme = .bar → Spells ts' body →
        Bodies (ts ++ bar :: ts') (bodies ++ [body])

/-- A head, an arrow and bodies. -/
inductive Clause : List Token → List (Rule String Char) → Prop
  | intro {head arrow : Token} {ts : List Token} {v : String}
      {bodies : List (List (Symbol String Char))} :
      head.lexeme = .nonterminal v → arrow.lexeme = .arrow → Bodies ts bodies →
        Clause (head :: arrow :: ts) (bodies.map (Rule.mk v))

/-- Clauses with line ends between them. -/
inductive Clauses : List Token → List (Rule String Char) → Prop
  | one {ts : List Token} {rules : List (Rule String Char)} : Clause ts rules → Clauses ts rules
  | more {ts ends ts' : List Token} {rules rules' : List (Rule String Char)} :
      Clauses ts rules → LineEnds ends → ends ≠ [] → Clause ts' rules' →
        Clauses (ts ++ ends ++ ts') (rules ++ rules')

/-- The tokens of a whole text, and the rules that it stands for in their order, one for each body:

    text    ::= LINE-END* clauses? LINE-END*
    clauses ::= clause (LINE-END+ clause)*
    clause  ::= NONTERMINAL ARROW bodies
    bodies  ::= body (BAR body)*
    body    ::= (NONTERMINAL | TERMINAL)*
-/
inductive Sentence : List Token → List (Rule String Char) → Prop
  | blank {ends ends' : List Token} : LineEnds ends → LineEnds ends' → Sentence (ends ++ ends') []
  | clauses {ends ts ends' : List Token} {rules : List (Rule String Char)} :
      LineEnds ends → Clauses ts rules → LineEnds ends' → Sentence (ends ++ ts ++ ends') rules

/-- Some sentence begins with the tokens. -/
def Viable (ts : List Token) : Prop :=
  ∃ rest rules, Sentence (ts ++ rest) rules

/-- Lines that are complete, so that the head of a clause is due: `LINE-END* (clause LINE-END+)*`.
-/
inductive Lines : List Token → List (Rule String Char) → Prop
  | nil : Lines [] []
  | blank {ts : List Token} {t : Token} {rules : List (Rule String Char)} :
      Lines ts rules → t.lexeme = .lineEnd → Lines (ts ++ [t]) rules
  | clause {ts ts' : List Token} {t : Token} {rules rules' : List (Rule String Char)} :
      Lines ts rules → Clause ts' rules' → t.lexeme = .lineEnd →
        Lines (ts ++ ts' ++ [t]) (rules ++ rules')

/-- The fault of a token behind others, by what is due in its place. -/
inductive Misplaced : List Token → Token → SyntaxFault → Prop
  | head {ts : List Token} {t : Token} {rules : List (Rule String Char)} :
      Lines ts rules → Misplaced ts t .head
  | arrow {ts : List Token} {head t : Token} {v : String} {rules : List (Rule String Char)} :
      Lines ts rules → head.lexeme = .nonterminal v → Misplaced (ts ++ [head]) t .arrow
  | symbol {ts ts' : List Token} {t : Token} {rules rules' : List (Rule String Char)} :
      Lines ts rules → Clause ts' rules' → t.lexeme = .arrow → Misplaced (ts ++ ts') t .symbol
  | token {ts ts' : List Token} {t : Token} {rules rules' : List (Rule String Char)} :
      Lines ts rules → Clause ts' rules' → t.lexeme = .invalid → Misplaced (ts ++ ts') t .token

section Clause

variable {ts : List Token} {t : Token} {bodies : List (List (Symbol String Char))}
  {body : List (Symbol String Char)}

theorem Spells.snoc {s : Symbol String Char} (h : Spells ts body) (ht : t.lexeme = .ofSymbol s) :
    Spells (ts ++ [t]) (body ++ [s]) := by
  unfold Spells at h ⊢
  rw [List.map_append, List.map_append, h, List.map_singleton, List.map_singleton, ht]

/-- No token at all is one empty body. -/
theorem Bodies.empty : Bodies [] [[]] :=
  .one rfl

theorem Bodies.exists_last (h : Bodies ts bodies) :
    ∃ front last, bodies = front ++ [last] := by
  cases h with
  | @one _ body _ => exact ⟨[], body, rfl⟩
  | @more _ _ _ front body _ _ _ => exact ⟨front, body, rfl⟩

/-- One more symbol belongs to the last body. -/
theorem Bodies.symbol {s : Symbol String Char} (h : Bodies ts (bodies ++ [body]))
    (ht : t.lexeme = .ofSymbol s) : Bodies (ts ++ [t]) (bodies ++ [body ++ [s]]) := by
  generalize hall : bodies ++ [body] = all at h
  cases h with
  | @one _ body' hspells =>
    have hone : bodies ++ [body] = [] ++ [body'] := hall
    obtain ⟨rfl, hbody⟩ := List.append_inj' hone rfl
    cases hbody
    exact .one (hspells.snoc ht)
  | more hbodies hbar hspells =>
    obtain ⟨rfl, hbody⟩ := List.append_inj' hall rfl
    cases hbody
    rw [List.append_assoc, List.cons_append]
    exact .more hbodies hbar (hspells.snoc ht)

/-- A bar begins one more body. -/
theorem Bodies.bar (h : Bodies ts bodies) (ht : t.lexeme = .bar) :
    Bodies (ts ++ [t]) (bodies ++ [[]]) :=
  .more h ht rfl

variable {v : String} {rules : List (Rule String Char)}

theorem Clause.exists_last (h : Clause ts rules) :
    ∃ front v body, rules = front ++ [⟨v, body⟩] := by
  obtain ⟨hhead, harrow, hbodies⟩ := h
  obtain ⟨bodies, body, rfl⟩ := hbodies.exists_last
  exact ⟨_, _, body, List.map_append⟩

/-- The last rule of a clause has the last body. -/
theorem Clause.parts (h : Clause ts (rules ++ [⟨v, body⟩])) :
    ∃ head arrow ts' bodies, ts = head :: arrow :: ts' ∧ head.lexeme = .nonterminal v ∧
      arrow.lexeme = .arrow ∧ Bodies ts' (bodies ++ [body]) ∧ rules = bodies.map (Rule.mk v) := by
  generalize hall : rules ++ [⟨v, body⟩] = all at h
  obtain ⟨hhead, harrow, hbodies⟩ := h
  obtain ⟨bodies, body', rfl⟩ := hbodies.exists_last
  rw [List.map_append, List.map_singleton] at hall
  obtain ⟨rfl, hlast⟩ := List.append_inj' hall rfl
  cases hlast
  exact ⟨_, _, _, bodies, rfl, hhead, harrow, hbodies, rfl⟩

theorem Clause.symbol {s : Symbol String Char} (h : Clause ts (rules ++ [⟨v, body⟩]))
    (ht : t.lexeme = .ofSymbol s) : Clause (ts ++ [t]) (rules ++ [⟨v, body ++ [s]⟩]) := by
  obtain ⟨head, arrow, ts', bodies, rfl, hhead, harrow, hbodies, rfl⟩ := h.parts
  have hclause := Clause.intro hhead harrow (hbodies.symbol ht)
  rw [List.map_append] at hclause
  exact hclause

theorem Clause.bar (h : Clause ts (rules ++ [⟨v, body⟩])) (ht : t.lexeme = .bar) :
    Clause (ts ++ [t]) (rules ++ [⟨v, body⟩] ++ [⟨v, []⟩]) := by
  obtain ⟨head, arrow, ts', bodies, rfl, hhead, harrow, hbodies, rfl⟩ := h.parts
  have hclause := Clause.intro hhead harrow (hbodies.bar ht)
  rw [List.map_append, List.map_append] at hclause
  exact hclause

end Clause

section Lines

variable {ts ends : List Token} {rules : List (Rule String Char)}

theorem Lines.lineEnds (h : Lines ts rules) (hends : LineEnds ends) : Lines (ts ++ ends) rules := by
  induction ends generalizing ts with
  | nil =>
    rw [List.append_nil]
    exact h
  | cons t ends ih =>
    rw [List.append_cons]
    exact ih (h.blank (hends t List.mem_cons_self))
      fun t' ht' => hends t' (List.mem_cons_of_mem t ht')

/-- Line ends behind a clause complete it. -/
theorem Lines.ended {ts' : List Token} {rules' : List (Rule String Char)} (h : Lines ts rules)
    (hclause : Clause ts' rules') (hends : LineEnds ends) (hne : ends ≠ []) :
    Lines (ts ++ ts' ++ ends) (rules ++ rules') := by
  cases ends with
  | nil => exact False.elim (hne rfl)
  | cons t ends =>
    rw [List.append_cons]
    exact (h.clause hclause (hends t List.mem_cons_self)).lineEnds
      fun t' ht' => hends t' (List.mem_cons_of_mem t ht')

/-- The last of some clauses stands behind complete lines. -/
theorem Clauses.exists_last (h : Clauses ts rules) (hends : LineEnds ends) :
    ∃ front last rules₁ rules₂, ends ++ ts = front ++ last ∧ rules = rules₁ ++ rules₂ ∧
      Lines front rules₁ ∧ Clause last rules₂ := by
  induction h with
  | @one ts rules hclause =>
    exact ⟨ends, ts, [], rules, rfl, rfl, Lines.nil.lineEnds hends, hclause⟩
  | @more ts ends' ts' rules rules' _ hends' hne hclause ih =>
    obtain ⟨front, last, rules₁, rules₂, hts, rfl, hlines, hlast⟩ := ih
    refine ⟨front ++ last ++ ends', ts', rules₁ ++ rules₂, rules', ?_, rfl,
      hlines.ended hlast hends' hne, hclause⟩
    rw [← hts]
    simp only [List.append_assoc]

/-- Complete lines are blank, or line ends stand behind some clauses. -/
theorem Lines.blank_or_clauses (h : Lines ts rules) :
    (LineEnds ts ∧ rules = []) ∨ ∃ ends middle ends', ts = ends ++ middle ++ ends' ∧
      LineEnds ends ∧ Clauses middle rules ∧ LineEnds ends' ∧ ends' ≠ [] := by
  induction h with
  | nil => exact .inl ⟨fun t ht => absurd ht List.not_mem_nil, rfl⟩
  | @blank ts t rules _ ht ih =>
    have hend : LineEnds [t] := List.forall_mem_singleton.mpr ht
    rcases ih with ⟨hts, rfl⟩ | ⟨ends, middle, ends', rfl, hends, hclauses, hends', hne⟩
    · exact .inl ⟨List.forall_mem_append.mpr ⟨hts, hend⟩, rfl⟩
    · refine .inr ⟨ends, middle, ends' ++ [t], ?_, hends, hclauses,
        List.forall_mem_append.mpr ⟨hends', hend⟩, List.append_ne_nil_of_left_ne_nil hne _⟩
      rw [List.append_assoc _ ends']
  | @clause ts ts' t rules rules' _ hclause ht ih =>
    have hend : LineEnds [t] := List.forall_mem_singleton.mpr ht
    rcases ih with ⟨hts, rfl⟩ | ⟨ends, middle, ends', rfl, hends, hclauses, hends', hne⟩
    · exact .inr ⟨ts, ts', [t], rfl, hts, .one hclause, hend, List.cons_ne_nil _ _⟩
    · refine .inr ⟨ends, middle ++ ends' ++ ts', [t], ?_, hends, hclauses.more hends' hne hclause,
        hend, List.cons_ne_nil _ _⟩
      simp only [List.append_assoc]

theorem Lines.sentence (h : Lines ts rules) : Sentence ts rules := by
  rcases h.blank_or_clauses with ⟨hts, rfl⟩ | ⟨ends, middle, ends', rfl, hends, hclauses, hends', _⟩
  · rw [← List.append_nil ts]
    exact .blank hts fun t ht => absurd ht List.not_mem_nil
  · exact .clauses hends hclauses hends'

/-- The last clause of a sentence need not be followed by a line end. -/
theorem Lines.sentence_clause {ts' : List Token} {rules' : List (Rule String Char)}
    (h : Lines ts rules) (hclause : Clause ts' rules') :
    Sentence (ts ++ ts') (rules ++ rules') := by
  have hnone : LineEnds [] := fun t ht => absurd ht List.not_mem_nil
  rw [← List.append_nil (ts ++ ts')]
  rcases h.blank_or_clauses with
    ⟨hts, rfl⟩ | ⟨ends, middle, ends', rfl, hends, hclauses, hends', hne⟩
  · exact .clauses hts (.one hclause) hnone
  · rw [List.append_assoc _ ends', List.append_assoc ends, ← List.append_assoc middle]
    exact .clauses hends (hclauses.more hends' hne hclause) hnone

/-- A sentence is made of complete lines and at most one more clause. -/
theorem sentence_iff : Sentence ts rules ↔ Lines ts rules ∨ ∃ front last rules₁ rules₂,
    ts = front ++ last ∧ rules = rules₁ ++ rules₂ ∧ Lines front rules₁ ∧ Clause last rules₂ := by
  constructor
  · intro h
    cases h with
    | @blank ends ends' hends hends' => exact .inl ((Lines.nil.lineEnds hends).lineEnds hends')
    | @clauses ends ts ends' rules hends hclauses hends' =>
      obtain ⟨front, last, rules₁, rules₂, hts, rfl, hlines, hlast⟩ := hclauses.exists_last hends
      rw [hts]
      by_cases hne : ends' = []
      · rw [hne, List.append_nil]
        exact .inr ⟨front, last, rules₁, rules₂, rfl, rfl, hlines, hlast⟩
      · exact .inl (hlines.ended hlast hends' hne)
  · intro h
    rcases h with hlines | ⟨front, last, rules₁, rules₂, rfl, rfl, hlines, hlast⟩
    · exact hlines.sentence
    · exact hlines.sentence_clause hlast

end Lines

end ContextFree
