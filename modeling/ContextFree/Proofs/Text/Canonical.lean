import ContextFree.Proofs.Text.Exact
import ContextFree.Proofs.Text.Lexemes

namespace ContextFree

/-- A terminal as it can be written anywhere in a body. Only the letters that an escape would change
stand for themselves. -/
def escape (c : Char) : String :=
  if c = '\n' then "\\n"
  else if c = '\t' then "\\t"
  else if c = ' ' then "\\s"
  else if c = 'n' ∨ c = 't' ∨ c = 's' then String.singleton c
  else "\\" ++ String.singleton c

def Symbol.canonical : Symbol String Char → String
  | .nonterminal v => "<" ++ v ++ ">"
  | .terminal c => escape c

def Rule.canonical (r : Rule String Char) : String :=
  "<" ++ r.head ++ "> ->" ++ String.join (r.body.map Symbol.canonical)

def canonicalText (rules : List (Rule String Char)) : String :=
  String.join (rules.map fun r => r.canonical ++ "\n")

/-- A name that can stand in angle brackets. -/
def Bracketable (v : String) : Prop :=
  v ≠ "" ∧ ∀ c ∈ v.toList, c ≠ '<' ∧ c ≠ '>' ∧ c ≠ '\n'

instance (v : String) : Decidable (Bracketable v) :=
  inferInstanceAs (Decidable (_ ∧ _))

/-- The names in a rule. -/
def Rule.names (r : Rule String Char) : List String :=
  r.head :: r.body.filterMap Symbol.nonterminal?

theorem lexemes_bracketed {v : String} (h : Bracketable v) (rest : List Char) :
    lexemes ('<' :: (v.toList ++ '>' :: rest)) = .nonterminal v :: lexemes rest := by
  have hne : v.toList ≠ [] := fun hnil => h.1 (String.toList_inj.mp hnil)
  have hwritten := Lexeme.Written.bracketed hne h.2
  rw [String.ofList_toList] at hwritten
  rw [List.append_cons]
  exact lexemes_written rfl (by decide) hwritten (by simp)

theorem lexemes_escaped {c d : Char} (rest : List Char)
    (h : Lexeme.escaped [c] = (.terminal d, 1)) :
    lexemes ('\\' :: c :: rest) = .terminal d :: lexemes rest :=
  lexemes_written rfl (by decide) (.escaped h) (by simp)

/-- A terminal is read back whatever it is. -/
theorem lexemes_escape (c : Char) (rest : List Char) :
    lexemes ((escape c).toList ++ rest) = .terminal c :: lexemes rest := by
  by_cases hline : c = '\n'
  · subst hline
    exact lexemes_escaped (c := 'n') rest rfl
  by_cases htab : c = '\t'
  · subst htab
    exact lexemes_escaped (c := 't') rest rfl
  by_cases hspace : c = ' '
  · subst hspace
    exact lexemes_escaped (c := 's') rest rfl
  by_cases hletter : c = 'n' ∨ c = 't' ∨ c = 's'
  · have hread : Lexeme.read c rest = (.terminal c, 0) := by
      rcases hletter with rfl | rfl | rfl <;> rfl
    have hplain : isBlank c = false ∧ c ≠ '#' := by
      rcases hletter with rfl | rfl | rfl <;> decide
    simpa [escape, hline, htab, hspace, hletter] using lexemes_cons hplain.1 hplain.2 rest hread
  · have hescaped : Lexeme.escaped [c] = (.terminal c, 1) := by
      obtain ⟨hn, ht, hs⟩ : c ≠ 'n' ∧ c ≠ 't' ∧ c ≠ 's' := by simpa using hletter
      rw [Lexeme.escaped] <;> assumption
    simpa [escape, hline, htab, hspace, hletter] using lexemes_escaped rest hescaped

theorem lexemes_symbols {body : List (Symbol String Char)}
    (h : ∀ v ∈ body.filterMap Symbol.nonterminal?, Bracketable v) (rest : List Char) :
    lexemes (body.flatMap (fun s => s.canonical.toList) ++ rest) =
      body.map .ofSymbol ++ lexemes rest := by
  induction body with
  | nil => rfl
  | cons s body ih =>
    rw [List.flatMap_cons, List.append_assoc, List.map_cons, List.cons_append]
    cases s with
    | terminal c => rw [Symbol.canonical, lexemes_escape, ih h, Lexeme.ofSymbol]
    | nonterminal v =>
      obtain ⟨hv, hbody⟩ := List.forall_mem_cons.mp h
      rw [← ih hbody, Symbol.canonical, String.toList_append, String.toList_append,
        List.append_assoc, List.append_assoc]
      exact lexemes_bracketed hv _

/-- A line is read up to its end. -/
theorem lexemes_line {r : Rule String Char} (h : ∀ v ∈ r.names, Bracketable v) (rest : List Char) :
    lexemes (r.canonical.toList ++ rest) = r.lexemes ++ lexemes rest := by
  have harrow : ∀ rest, lexemes (' ' :: '-' :: '>' :: rest) = .arrow :: lexemes rest := by
    intro rest
    rw [lexemes_blank rfl]
    exact lexemes_cons rfl (by decide) _ rfl
  have hline : r.canonical.toList ++ rest = '<' :: (r.head.toList ++ '>' :: ' ' :: '-' :: '>' ::
      (r.body.flatMap (fun s => s.canonical.toList) ++ rest)) := by
    simp [Rule.canonical, List.flatMap_map]
  obtain ⟨hhead, hbody⟩ := List.forall_mem_cons.mp h
  rw [hline, lexemes_bracketed hhead, harrow, lexemes_symbols hbody]
  rfl

/-- No line begins with white space. -/
theorem exists_canonical_eq_cons (r : Rule String Char) :
    ∃ c cs, r.canonical.toList = c :: cs ∧ isWhiteSpace c = false :=
  ⟨'<', (r.head ++ "> ->" ++ String.join (r.body.map Symbol.canonical)).toList,
    by simp [Rule.canonical], rfl⟩

/-- Lines are read up to the end of the last one. -/
theorem lexemes_canonicalText {rules : List (Rule String Char)}
    (h : ∀ r ∈ rules, ∀ v ∈ r.names, Bracketable v) {rest : List Char}
    (hrest : rest.takeWhile isWhiteSpace = []) :
    lexemes ((canonicalText rules).toList ++ rest) =
      (rules.flatMap fun r => r.lexemes ++ [.lineEnd]) ++ lexemes rest :=
  lexemes_lines (fun r hr _ => lexemes_line (h r hr) _) (fun r _ => exists_canonical_eq_cons r)
    hrest

/-- The line end behind the last rule may be left out. -/
theorem eq_of_append_lineEnd {rules : List (Rule String Char)} {text : String}
    (h : text ++ "\n" = canonicalText rules) :
    ∃ front r, rules = front ++ [r] ∧
      text.toList = (canonicalText front).toList ++ r.canonical.toList := by
  rcases List.eq_nil_or_concat rules with rfl | ⟨front, r, rfl⟩
  · have hnil := congrArg String.toList h
    simp [canonicalText] at hnil
  · refine ⟨front, r, List.concat_eq_append, ?_⟩
    have hlist := congrArg String.toList h
    rw [List.concat_eq_append] at hlist
    simpa [canonicalText, ← List.append_assoc] using hlist

theorem sentence_of_canonical {rules : List (Rule String Char)}
    (h : ∀ r ∈ rules, ∀ v ∈ r.names, Bracketable v) {text : String}
    (htext : text = canonicalText rules ∨ text ++ "\n" = canonicalText rules) :
    Sentence (Token.ofText text) rules := by
  rcases htext with rfl | hcut
  · have hlexemes := lexemes_canonicalText h (rfl : ([] : List Char).takeWhile isWhiteSpace = [])
    rw [List.append_nil, lexemes_nil, List.append_nil] at hlexemes
    exact (Lines.of_lexemes hlexemes).sentence
  · obtain ⟨front, r, rfl, hsplit⟩ := eq_of_append_lineEnd hcut
    obtain ⟨hfront, hr⟩ := List.forall_mem_append.mp h
    have hbracket : isWhiteSpace '<' = false := rfl
    have hline : r.canonical.toList.takeWhile isWhiteSpace = [] := by
      simp [Rule.canonical, hbracket]
    have hlast := lexemes_line (hr r (List.mem_singleton_self r)) []
    have hlexemes := lexemes_canonicalText hfront hline
    rw [List.append_nil, lexemes_nil, List.append_nil] at hlast
    rw [hlast, ← hsplit] at hlexemes
    obtain ⟨ts, ts', hts, hlines, hclause⟩ := List.map_eq_append_iff.mp hlexemes
    rw [Token.ofText, hts]
    exact (Lines.of_lexemes hlines).sentence_clause (.of_lexemes hclause)

/-- Every list of rules whose names can stand in angle brackets has a text. Its canonical text, with
or without the last line end, is read as a grammar with these rules in their order, numbered from 1,
and with the first head as the start. -/
theorem Grammar.ofText_canonicalText {rules : List (Rule String Char)}
    (h : ∀ r ∈ rules, ∀ v ∈ r.names, Bracketable v) {text : String}
    (htext : text = canonicalText rules ∨ text ++ "\n" = canonicalText rules) :
    ∃ g, ofText text = .ok g ∧ (g.productions = rules.mapIdx fun i r => ⟨r, i + 1⟩) ∧
      g.start = rules.head?.map Rule.head :=
  ⟨_, (sentence_of_canonical h htext).ofText_eq_ok, rfl, rfl⟩

/-- Rules with names and terminals that mean something else elsewhere in a text. -/
def awkward : List (Rule String Char) :=
  [⟨"# a\\|-", [.terminal '#', .nonterminal " ", .terminal '\r', .terminal '<']⟩, ⟨" ", []⟩,
    ⟨" ", [.terminal '-', .terminal '>', .terminal 'A', .terminal 'n', .terminal '\n']⟩]

theorem Grammar.ofText_canonicalText_awkward :
    (∀ r ∈ awkward, ∀ v ∈ r.names, Bracketable v) ∧
      "<# a\\|-> ->\\#< >\\\r\\<\n< > ->\n< > ->\\-\\>\\An\\n" ++ "\n" = canonicalText awkward ∧
      ∃ g, ofText "<# a\\|-> ->\\#< >\\\r\\<\n< > ->\n< > ->\\-\\>\\An\\n" = .ok g ∧
        (g.productions = awkward.mapIdx fun i r => ⟨r, i + 1⟩) ∧ g.start = some "# a\\|-" := by
  have hnames : ∀ r ∈ awkward, ∀ v ∈ r.names, Bracketable v := by
    simp [awkward, Rule.names, Bracketable]
  have htext : "<# a\\|-> ->\\#< >\\\r\\<\n< > ->\n< > ->\\-\\>\\An\\n" ++ "\n" =
      canonicalText awkward := by decide
  exact ⟨hnames, htext, ofText_canonicalText hnames (.inr htext)⟩

end ContextFree
