import ContextFree.Proofs.Text.Sentence

namespace ContextFree

variable {ts : List Token} {t : Token} {v : String} {rules : List (Rule String Char)}
  {body : List (Symbol String Char)} {place : Place}

section Reading

/-- Rules read in two parts stand one behind the other. -/
theorem map_append_map (rules rules' : List (Rule String Char))
    (r : Except SyntaxError (List (Rule String Char))) :
    (r.map (rules' ++ ·)).map (rules ++ ·) = r.map (rules ++ rules' ++ ·) := by
  cases r with
  | error e => rfl
  | ok more => simp only [Except.map, List.append_assoc]

theorem map_nil_append (r : Except SyntaxError (List (Rule String Char))) :
    r.map ([] ++ ·) = r := by
  cases r <;> rfl

/-- The symbols of a body are read one by one. -/
theorem Spells.read (h : Spells ts body) (symbols : List (Symbol String Char)) (rest : List Token) :
    readRules (.inBody v symbols) (ts ++ rest) =
      readRules (.inBody v (body.reverse ++ symbols)) rest := by
  induction body generalizing ts symbols with
  | nil =>
    obtain rfl := List.map_eq_nil_iff.mp h
    rfl
  | cons s body ih =>
    obtain ⟨t, ts, rfl, ht, hspells⟩ := List.map_eq_cons_iff.mp h
    have hfirst : readRules (.inBody v symbols) (t :: ts ++ rest) =
        readRules (.inBody v (s :: symbols)) (ts ++ rest) := by
      cases s <;> simp only [List.cons_append, readRules, ht, Lexeme.ofSymbol]
    rw [hfirst, ih hspells, List.reverse_cons, List.append_assoc, List.singleton_append]

theorem read_bar (ht : t.lexeme = .bar) (symbols : List (Symbol String Char)) (rest : List Token) :
    readRules (.inBody v symbols) (t :: rest) =
      (readRules (.inBody v []) rest).map ([⟨v, symbols.reverse⟩] ++ ·) := by
  simp only [readRules, ht, List.singleton_append]

theorem read_lineEnd (ht : t.lexeme = .lineEnd) (symbols : List (Symbol String Char))
    (rest : List Token) :
    readRules (.inBody v symbols) (t :: rest) =
      (readRules .before rest).map ([⟨v, symbols.reverse⟩] ++ ·) := by
  simp only [readRules, ht, List.singleton_append]

/-- All bodies but the last one are complete when the last one has been read. -/
theorem Bodies.read {bodies : List (List (Symbol String Char))} (h : Bodies ts (bodies ++ [body]))
    (rest : List Token) :
    readRules (.inBody v []) (ts ++ rest) =
      (readRules (.inBody v body.reverse) rest).map (bodies.map (Rule.mk v) ++ ·) := by
  generalize hall : bodies ++ [body] = all at h
  induction h generalizing bodies body rest with
  | @one ts body' hspells =>
    have hone : bodies ++ [body] = [] ++ [body'] := hall
    obtain ⟨rfl, hbody⟩ := List.append_inj' hone rfl
    cases hbody
    rw [hspells.read, List.append_nil, List.map_nil, map_nil_append]
  | @more ts ts' bar all body' hbodies hbar hspells ih =>
    obtain ⟨rfl, hbody⟩ := List.append_inj' hall rfl
    cases hbody
    obtain ⟨front, last, rfl⟩ := hbodies.exists_last
    rw [List.append_assoc, List.cons_append, ih _ rfl, read_bar hbar, hspells.read,
      List.append_nil, List.reverse_reverse, map_append_map, List.map_append, List.map_singleton]

theorem Clause.read (h : Clause ts (rules ++ [⟨v, body⟩])) (rest : List Token) :
    readRules .before (ts ++ rest) =
      (readRules (.inBody v body.reverse) rest).map (rules ++ ·) := by
  obtain ⟨head, arrow, ts', bodies, rfl, hhead, harrow, hbodies, rfl⟩ := h.parts
  rw [List.cons_append, List.cons_append, readRules, hhead]
  simp only [readRules, harrow]
  exact hbodies.read rest

theorem Lines.read (h : Lines ts rules) (rest : List Token) :
    readRules .before (ts ++ rest) = (readRules .before rest).map (rules ++ ·) := by
  induction h generalizing rest with
  | nil => exact (map_nil_append _).symm
  | @blank ts t rules _ ht ih =>
    rw [List.append_assoc, ih, List.singleton_append, readRules, ht]
  | @clause ts ts' t rules rules' _ hclause ht ih =>
    obtain ⟨front, v, body, rfl⟩ := hclause.exists_last
    rw [List.append_assoc, List.append_assoc, ih, hclause.read, List.singleton_append,
      read_lineEnd ht, List.reverse_reverse, map_append_map, map_append_map, List.append_assoc]

end Reading

/-- What has been read when a place is reached: the tokens up to it, and the rules that are
complete. -/
inductive Reaches : List Token → Place → List (Rule String Char) → Prop
  | before {ts : List Token} {rules : List (Rule String Char)} :
      Lines ts rules → Reaches ts .before rules
  | behindHead {ts : List Token} {head : Token} {v : String} {rules : List (Rule String Char)} :
      Lines ts rules → head.lexeme = .nonterminal v →
        Reaches (ts ++ [head]) (.behindHead v head.stop) rules
  | inBody {ts ts' : List Token} {v : String} {body : List (Symbol String Char)}
      {rules rules' : List (Rule String Char)} :
      Lines ts rules → Clause ts' (rules' ++ [⟨v, body⟩]) →
        Reaches (ts ++ ts') (.inBody v body.reverse) (rules ++ rules')

/-- Reading goes on at the place that is reached. -/
theorem Reaches.read (h : Reaches ts place rules) (rest : List Token) :
    readRules .before (ts ++ rest) = (readRules place rest).map (rules ++ ·) := by
  cases h with
  | before hlines => exact hlines.read rest
  | behindHead hlines hhead =>
    rw [List.append_assoc, hlines.read, List.singleton_append, readRules, hhead]
  | inBody hlines hclause =>
    rw [List.append_assoc, hlines.read, hclause.read, map_append_map]

/-- The fault of a token that a place has no use for. -/
def Place.fault : Place → Token → SyntaxFault
  | .before, _ => .head
  | .behindHead _ _, _ => .arrow
  | .inBody _ _, t => if t.lexeme = .arrow then .symbol else .token

/-- One more token leads to a further place or is misplaced. -/
theorem Reaches.next (h : Reaches ts place rules) (t : Token) :
    (∃ place' rules', Reaches (ts ++ [t]) place' rules') ∨
      Misplaced ts t (place.fault t) ∧
        ∀ rest, readRules place (t :: rest) = .error ((place.fault t).at t) := by
  cases h with
  | before hlines =>
    cases ht : t.lexeme with
    | lineEnd => exact .inl ⟨_, _, .before (hlines.blank ht)⟩
    | nonterminal v => exact .inl ⟨_, _, .behindHead hlines ht⟩
    | terminal _ | arrow | bar | invalid =>
      exact .inr ⟨.head hlines, fun rest => by simp only [readRules, ht, Place.fault]⟩
  | @behindHead ts head v rules hlines hhead =>
    cases ht : t.lexeme with
    | arrow =>
      have hclause : Clause [head, t] ([] ++ [⟨v, []⟩]) := .intro hhead ht .empty
      rw [List.append_assoc]
      exact .inl ⟨_, _, .inBody hlines hclause⟩
    | nonterminal _ | terminal _ | bar | lineEnd | invalid =>
      exact .inr ⟨.arrow hlines hhead, fun rest => by simp only [readRules, ht, Place.fault]⟩
  | inBody hlines hclause =>
    cases ht : t.lexeme with
    | nonterminal w =>
      rw [List.append_assoc]
      exact .inl ⟨_, _, .inBody hlines (hclause.symbol (s := .nonterminal w) ht)⟩
    | terminal c =>
      rw [List.append_assoc]
      exact .inl ⟨_, _, .inBody hlines (hclause.symbol (s := .terminal c) ht)⟩
    | bar =>
      rw [List.append_assoc]
      exact .inl ⟨_, _, .inBody hlines (hclause.bar ht)⟩
    | lineEnd => exact .inl ⟨_, _, .before (hlines.clause hclause ht)⟩
    | arrow =>
      simp only [readRules, Place.fault, ht, if_true]
      exact .inr ⟨.symbol hlines hclause ht, fun _ => trivial⟩
    | invalid =>
      simp only [readRules, Place.fault, ht, reduceCtorEq, if_false]
      exact .inr ⟨.token hlines hclause ht, fun _ => trivial⟩

/-- Some place is reached behind all tokens, or one of them is the first that is misplaced. -/
theorem Reaches.all_or_misplaced {front : List Token} (h : Reaches front place rules)
    (ts : List Token) :
    (∃ place' rules', Reaches (front ++ ts) place' rules') ∨
      ∃ middle t rest place' rules', ts = middle ++ t :: rest ∧
        Reaches (front ++ middle) place' rules' ∧ Misplaced (front ++ middle) t (place'.fault t) ∧
        ∀ rest', readRules place' (t :: rest') = .error ((place'.fault t).at t) := by
  induction ts generalizing front place rules with
  | nil =>
    rw [List.append_nil]
    exact .inl ⟨place, rules, h⟩
  | cons t ts ih =>
    rcases h.next t with ⟨place', rules', hnext⟩ | ⟨hmisplaced, herror⟩
    · rw [List.append_cons]
      rcases ih hnext with hall | ⟨middle, t', rest, place'', rules'', rfl, hreaches, hrest⟩
      · exact .inl hall
      · refine .inr ⟨t :: middle, t', rest, place'', rules'', rfl, ?_⟩
        rw [List.append_cons]
        exact ⟨hreaches, hrest⟩
    · refine .inr ⟨[], t, ts, place, rules, rfl, ?_⟩
      rw [List.append_nil]
      exact ⟨h, hmisplaced, herror⟩

section Outcome

variable {front : List Token}

/-- The rules of a sentence are read. -/
theorem Sentence.read (h : Sentence ts rules) : readRules .before ts = .ok rules := by
  rcases sentence_iff.mp h with hlines | ⟨front, last, rules₁, rules₂, rfl, rfl, hlines, hclause⟩
  · have hread := hlines.read []
    rw [List.append_nil] at hread
    rw [hread, readRules, Except.map, List.append_nil]
  · obtain ⟨complete, v, body, rfl⟩ := hclause.exists_last
    have hread := hclause.read []
    rw [List.append_nil] at hread
    rw [hlines.read, hread, readRules, Except.map, Except.map, List.reverse_reverse]

theorem Reaches.viable (h : Reaches ts place rules) : Viable ts := by
  cases h with
  | before hlines => exact ⟨[], _, by rw [List.append_nil]; exact hlines.sentence⟩
  | @behindHead ts head v rules hlines hhead =>
    have hclause : Clause [head, ⟨.arrow, 0, 0⟩] [⟨v, []⟩] := .intro hhead rfl .empty
    refine ⟨[⟨.arrow, 0, 0⟩], rules ++ [⟨v, []⟩], ?_⟩
    rw [List.append_assoc]
    exact hlines.sentence_clause hclause
  | inBody hlines hclause =>
    exact ⟨[], _, by rw [List.append_nil]; exact hlines.sentence_clause hclause⟩

/-- No sentence has a token in a place that has no use for it. -/
theorem Reaches.not_viable {e : SyntaxError} (h : Reaches front place rules)
    (herror : ∀ rest, readRules place (t :: rest) = .error e) : ¬ Viable (front ++ [t]) := by
  intro hviable
  obtain ⟨rest, rules', hsentence⟩ := hviable
  have hread := hsentence.read
  rw [← List.append_cons, h.read, herror] at hread
  cases hread

/-- A misplaced token stands at a place that explains its fault. -/
theorem Misplaced.reaches {fault : SyntaxFault} (h : Misplaced ts t fault) :
    ∃ place rules, Reaches ts place rules ∧ place.fault t = fault := by
  cases h with
  | head hlines => exact ⟨_, _, .before hlines, rfl⟩
  | arrow hlines hhead => exact ⟨_, _, .behindHead hlines hhead, rfl⟩
  | symbol hlines hclause ht =>
    obtain ⟨complete, v, body, rfl⟩ := hclause.exists_last
    exact ⟨_, _, .inBody hlines hclause, if_pos ht⟩
  | token hlines hclause ht =>
    obtain ⟨complete, v, body, rfl⟩ := hclause.exists_last
    refine ⟨_, _, .inBody hlines hclause, if_neg ?_⟩
    rw [ht]
    exact Lexeme.noConfusion

/-- A place reached at the end of a text completes a sentence, unless it is behind a head. -/
theorem Reaches.sentence_or_cutOff (h : Reaches ts place rules) :
    (∃ rules', Sentence ts rules') ∨ ∃ front head v rules', ts = front ++ [head] ∧
      Lines front rules' ∧ head.lexeme = .nonterminal v ∧
      readRules .before ts = .error ⟨.arrow, head.stop, head.stop⟩ := by
  have hread := h.read []
  rw [List.append_nil] at hread
  cases h with
  | before hlines => exact .inl ⟨_, hlines.sentence⟩
  | behindHead hlines hhead => exact .inr ⟨_, _, _, _, rfl, hlines, hhead, hread⟩
  | inBody hlines hclause => exact .inl ⟨_, hlines.sentence_clause hclause⟩

end Outcome

/-- What is wrong with a text: a token is the first one that no sentence has in its place, or the
text, which begins a sentence, ends behind the head of a clause. -/
inductive Offence : List Token → SyntaxError → Prop
  | misplaced {front rest : List Token} {t : Token} {fault : SyntaxFault} :
      Viable front → ¬ Viable (front ++ [t]) → Misplaced front t fault →
        Offence (front ++ t :: rest) (fault.at t)
  | cutOff {front : List Token} {head : Token} {v : String} {rules : List (Rule String Char)} :
      Lines front rules → head.lexeme = .nonterminal v → Viable (front ++ [head]) →
        Offence (front ++ [head]) ⟨.arrow, head.stop, head.stop⟩

/-- Every text is a sentence, or something is wrong with it, and reading tells what. -/
theorem sentence_or_offence (ts : List Token) :
    (∃ rules, Sentence ts rules) ∨ ∃ e, Offence ts e ∧ readRules .before ts = .error e := by
  rcases (Reaches.before Lines.nil).all_or_misplaced ts with
    ⟨place, rules, hall⟩ | ⟨front, t, rest, place, rules, rfl, hreaches, hmisplaced, herror⟩
  · rw [List.nil_append] at hall
    rcases hall.sentence_or_cutOff with hsentence | ⟨front, head, v, rules', rfl, hlines, hhead, he⟩
    · exact .inl hsentence
    · exact .inr ⟨_, .cutOff hlines hhead hall.viable, he⟩
  · rw [List.nil_append] at hreaches hmisplaced
    refine .inr ⟨_, .misplaced hreaches.viable (hreaches.not_viable herror) hmisplaced, ?_⟩
    rw [hreaches.read, herror]
    rfl

/-- Reading tells what is wrong with a text. -/
theorem Offence.read {e : SyntaxError} (h : Offence ts e) : readRules .before ts = .error e := by
  cases h with
  | @misplaced front rest t fault _ hnot hmisplaced =>
    obtain ⟨place, rules, hreaches, rfl⟩ := hmisplaced.reaches
    rcases hreaches.next t with ⟨place', rules', hnext⟩ | ⟨_, herror⟩
    · exact False.elim (hnot hnext.viable)
    · rw [hreaches.read, herror]
      rfl
  | cutOff hlines hhead _ =>
    rw [hlines.read, readRules, hhead]
    rfl

theorem readRules_eq_ok : readRules .before ts = .ok rules ↔ Sentence ts rules := by
  refine ⟨fun h => ?_, Sentence.read⟩
  rcases sentence_or_offence ts with ⟨rules', hsentence⟩ | ⟨e, _, he⟩
  · rw [hsentence.read] at h
    cases h
    exact hsentence
  · rw [he] at h
    cases h

theorem readRules_eq_error {e : SyntaxError} :
    readRules .before ts = .error e ↔ Offence ts e := by
  refine ⟨fun h => ?_, Offence.read⟩
  rcases sentence_or_offence ts with ⟨rules, hsentence⟩ | ⟨e', hoffence, he⟩
  · rw [hsentence.read] at h
    cases h
  · rw [he] at h
    cases h
    exact hoffence

/-- No place has a use for an invalid token. -/
theorem read_invalid (ht : t.lexeme = .invalid) (place : Place) (rest : List Token) :
    ∃ e, readRules place (t :: rest) = .error e := by
  cases place <;> simp only [readRules, ht, Except.error.injEq, exists_eq']

theorem Sentence.valid (h : Sentence ts rules) : ∀ t ∈ ts, t.lexeme ≠ .invalid := by
  intro t hmem hinvalid
  obtain ⟨front, rest, rfl⟩ := List.append_of_mem hmem
  have hread := h.read
  rcases (Reaches.before Lines.nil).all_or_misplaced front with
    ⟨place, rules', hall⟩ | ⟨middle, t', rest', place, rules', rfl, hreaches, _, herror⟩
  · obtain ⟨e, he⟩ := read_invalid hinvalid place rest
    rw [List.nil_append] at hall
    rw [hall.read, he] at hread
    cases hread
  · rw [List.nil_append] at hreaches
    rw [List.append_assoc, List.cons_append, hreaches.read, herror] at hread
    cases hread

theorem Sentence.ofText_eq_ok {text : String} (h : Sentence (Token.ofText text) rules) :
    Grammar.ofText text = .ok (.ofRules none rules) := by
  rw [Grammar.ofText, h.read]
  rfl

/-- The texts that can be read are the sentences. They give their rules in order, with the first
head as the start, and reading any other text tells the first thing that is wrong with it. -/
theorem Grammar.ofText_exact (text : String) :
    ((∃ g, ofText text = .ok g) ↔ (∀ t ∈ Token.ofText text, t.lexeme ≠ .invalid) ∧
      ∃ rules, Sentence (Token.ofText text) rules) ∧
    (∀ rules, Sentence (Token.ofText text) rules → ∃ g, ofText text = .ok g ∧
      g.productions.map Production.toRule = rules ∧ g.start = rules.head?.map Rule.head) ∧
    ∀ e, ofText text = .error e ↔ Offence (Token.ofText text) e := by
  refine ⟨⟨?_, ?_⟩, ?_, ?_⟩
  · intro h
    obtain ⟨g, hg⟩ := h
    cases hread : readRules .before (Token.ofText text) with
    | error e =>
      rw [ofText, hread] at hg
      cases hg
    | ok rules =>
      have hsentence := readRules_eq_ok.mp hread
      exact ⟨hsentence.valid, rules, hsentence⟩
  · intro h
    obtain ⟨_, rules, hsentence⟩ := h
    exact ⟨_, hsentence.ofText_eq_ok⟩
  · intro rules hsentence
    exact ⟨_, hsentence.ofText_eq_ok, map_toRule_ofRules none rules, rfl⟩
  · intro e
    rw [← readRules_eq_error, ofText]
    cases readRules .before (Token.ofText text) <;> simp [Except.map]

-- An arrow is due in the place of the last letter.
example : Grammar.ofText "A -> a\nB c" = .error ⟨.arrow, 9, 10⟩ := by cbv

end ContextFree
