import ContextFree.Proofs.Text.Canonical

namespace ContextFree

/-- A character that stands for itself in a body, unless it makes an arrow with the next one. -/
def IsPlain (c : Char) : Prop :=
  isWhiteSpace c = false ∧ c ≠ '#' ∧ c ≠ '|' ∧ c ≠ '<' ∧ c ≠ '\\' ∧ ¬ ('A' ≤ c ∧ c ≤ 'Z')

instance (c : Char) : Decidable (IsPlain c) :=
  inferInstanceAs (Decidable (_ ∧ _))

/-- A rule whose names are capital letters and whose terminals stand for themselves, none of them
being a dash in front of an angle bracket. -/
structure Rule.Plain (r : Rule String Char) : Prop where
  names : ∀ v ∈ r.names, ∃ c, ('A' ≤ c ∧ c ≤ 'Z') ∧ v = String.singleton c
  terminals : ∀ c, .terminal c ∈ r.body → IsPlain c
  no_arrow : ¬ [.terminal '-', .terminal '>'] <:+: r.body

section Characters

variable {c : Char}

theorem isWhiteSpace_capital (h : 'A' ≤ c ∧ c ≤ 'Z') : isWhiteSpace c = false := by
  have hlow : 65 ≤ c.toNat := h.1
  have hhigh : c.toNat ≤ 90 := h.2
  simp only [isWhiteSpace, whiteSpaceRanges, List.any_cons, List.any_nil, Bool.or_false,
    Bool.or_eq_false_iff, Bool.and_eq_false_iff, decide_eq_false_iff_not]
  omega

theorem isBlank_eq_false (h : isWhiteSpace c = false) : isBlank c = false := by
  rw [isBlank, h, Bool.false_and]

theorem lexemes_capital (h : 'A' ≤ c ∧ c ≤ 'Z') (rest : List Char) :
    lexemes (c :: rest) = .nonterminal (String.singleton c) :: lexemes rest :=
  lexemes_written (isBlank_eq_false (isWhiteSpace_capital h)) (ne_of_capital h (by decide))
    (.capital h) fun hdash => absurd (List.cons.inj hdash).1 (ne_of_capital h (by decide))

/-- A plain character is read as itself, unless it is a dash in front of an angle bracket. -/
theorem lexemes_plain (h : IsPlain c) {rest : List Char}
    (hdash : c = '-' → rest.head? ≠ some '>') :
    lexemes (c :: rest) = .terminal c :: lexemes rest := by
  obtain ⟨hwhite, hhash, hbar, hangle, hescape, hcapital⟩ := h
  have hline : c ≠ '\n' := by
    rintro rfl
    cases hwhite
  exact lexemes_written (isBlank_eq_false hwhite) hhash (.plain hline hbar hangle hescape hcapital)
    fun h => hdash (List.cons.inj h).1

end Characters

section Symbols

variable {r : Rule String Char} {s : Symbol String Char} {body : List (Symbol String Char)}

theorem toList_text_nonterminal (c : Char) :
    (Symbol.nonterminal (T := Char) (String.singleton c)).text.toList = [c] :=
  String.toList_singleton c

theorem toList_text_terminal (c : Char) : (Symbol.terminal (V := String) c).text.toList = [c] :=
  String.toList_singleton c

/-- A symbol of a plain rule. -/
inductive PlainSymbol : Symbol String Char → Prop
  | nonterminal {c : Char} : 'A' ≤ c ∧ c ≤ 'Z' → PlainSymbol (.nonterminal (String.singleton c))
  | terminal {c : Char} : IsPlain c → PlainSymbol (.terminal c)

theorem Rule.Plain.symbols (h : r.Plain) : ∀ s ∈ r.body, PlainSymbol s := by
  intro s hs
  cases s with
  | terminal c => exact .terminal (h.terminals c hs)
  | nonterminal v =>
    have hname : v ∈ r.names := List.mem_cons_of_mem _ (List.mem_filterMap.mpr ⟨_, hs, rfl⟩)
    obtain ⟨c, hc, rfl⟩ := h.names v hname
    exact .nonterminal hc

/-- A plain symbol is read back, unless it makes an arrow with what follows. -/
theorem PlainSymbol.lexemes_text (h : PlainSymbol s) {rest : List Char}
    (hdash : s = .terminal '-' → rest.head? ≠ some '>') :
    lexemes (s.text.toList ++ rest) = .ofSymbol s :: lexemes rest := by
  cases h with
  | @nonterminal c hc =>
    rw [toList_text_nonterminal]
    exact lexemes_capital hc rest
  | @terminal c hc =>
    rw [toList_text_terminal]
    exact lexemes_plain hc fun h => hdash (congrArg Symbol.terminal h)

/-- What is shown of plain symbols begins with an angle bracket only if the first of them is one. -/
theorem PlainSymbol.head?_text (h : PlainSymbol s) {rest : List Char}
    (hs : s ≠ .terminal '>') : (s.text.toList ++ rest).head? ≠ some '>' := by
  cases h with
  | @nonterminal c hc =>
    simpa [toList_text_nonterminal] using ne_of_capital hc (d := '>') (by decide)
  | @terminal c hc => simpa [toList_text_terminal] using hs

theorem lexemes_symbols_text (hs : ∀ s ∈ body, PlainSymbol s)
    (harrow : ¬ [.terminal '-', .terminal '>'] <:+: body) {rest : List Char}
    (hrest : rest.head? ≠ some '>') :
    lexemes (body.flatMap (fun s => s.text.toList) ++ rest) =
      body.map .ofSymbol ++ lexemes rest := by
  induction body with
  | nil => rfl
  | cons s body ih =>
    obtain ⟨hfirst, hbody⟩ := List.forall_mem_cons.mp hs
    have hinfix : ¬ [.terminal '-', .terminal '>'] <:+: body :=
      fun h => harrow (List.infix_cons h)
    rw [List.flatMap_cons, List.append_assoc, List.map_cons, List.cons_append, ← ih hbody hinfix]
    apply hfirst.lexemes_text
    rintro rfl
    cases body with
    | nil => exact hrest
    | cons s' body =>
      rw [List.flatMap_cons, List.append_assoc]
      apply (hbody s' List.mem_cons_self).head?_text
      rintro rfl
      exact harrow ⟨[], body, rfl⟩

theorem Rule.Plain.exists_head (h : r.Plain) :
    ∃ c, ('A' ≤ c ∧ c ≤ 'Z') ∧ r.head = String.singleton c ∧ (Name.text r.head).toList = [c] := by
  obtain ⟨c, hc, hhead⟩ := h.names r.head List.mem_cons_self
  exact ⟨c, hc, hhead, by rw [hhead]; exact String.toList_singleton c⟩

/-- A plain rule is read back from its line. -/
theorem lexemes_text (h : r.Plain) (rest : List Char) :
    lexemes (r.text.toList ++ '\n' :: rest) = r.lexemes ++ lexemes ('\n' :: rest) := by
  obtain ⟨c, hc, hhead, htext⟩ := h.exists_head
  have harrow : ∀ rest, lexemes (' ' :: '-' :: '>' :: rest) = .arrow :: lexemes rest := by
    intro rest
    rw [lexemes_blank rfl]
    exact lexemes_cons rfl (by decide) _ rfl
  have hspace : ∀ rest, lexemes ((if r.body.isEmpty then "" else " ").toList ++ rest) =
      lexemes rest := by
    intro rest
    split
    · rfl
    · exact lexemes_blank rfl rest
  have hline : r.text.toList ++ '\n' :: rest = c :: ' ' :: '-' :: '>' ::
      ((if r.body.isEmpty then "" else " ").toList ++
        (r.body.flatMap (fun s => s.text.toList) ++ '\n' :: rest)) := by
    simp [Rule.text, Symbol.textAll, htext, List.flatMap_map]
  rw [hline, lexemes_capital hc, harrow, hspace,
    lexemes_symbols_text h.symbols h.no_arrow (by simp), Rule.lexemes, hhead]
  rfl

/-- No line begins with white space. -/
theorem exists_text_eq_cons (h : r.Plain) :
    ∃ c cs, r.text.toList = c :: cs ∧ isWhiteSpace c = false := by
  obtain ⟨c, hc, _, htext⟩ := h.exists_head
  refine ⟨c, (" ->" ++ (if r.body.isEmpty then "" else " ") ++ Symbol.textAll r.body).toList, ?_,
    isWhiteSpace_capital hc⟩
  simp [Rule.text, htext]

end Symbols

namespace Grammar

/-- The productions of a grammar are its rules with their numbers. -/
theorem productions_eq_mapIdx {V T : Type} (g : Grammar V T) :
    g.productions = (g.productions.map Production.toRule).mapIdx fun i r => ⟨r, i + 1⟩ := by
  apply List.ext_getElem? fun i => ?_
  rw [List.getElem?_mapIdx, List.getElem?_map]
  cases hp : g.productions[i]? with
  | none => rfl
  | some p => simp [← g.numbered i p hp]

variable {g : Grammar String Char}

/-- A grammar of plain rules is read back from the text that shows it: the same productions with the
same numbers, and the first head as the start. -/
theorem ofText_text (h : ∀ p ∈ g.productions, p.toRule.Plain) :
    ∃ g', ofText g.text = .ok g' ∧ g'.productions = g.productions ∧
      g'.start = g.productions.head?.map fun p => p.head := by
  have hplain : ∀ r ∈ g.productions.map Production.toRule, r.Plain := by
    simpa using h
  have htext : String.join ((g.productions.map Production.toRule).map fun r => r.text ++ "\n") =
      g.text := by
    simp [text, Function.comp_def]
  have hnil : ([] : List Char).takeWhile isWhiteSpace = [] := rfl
  have hlexemes := lexemes_lines (fun r hr _ => lexemes_text (hplain r hr) _)
    (fun r hr => exists_text_eq_cons (hplain r hr)) hnil
  rw [htext, List.append_nil, lexemes_nil, List.append_nil] at hlexemes
  have hsentence : Sentence (Token.ofText g.text) (g.productions.map Production.toRule) :=
    (Lines.of_lexemes hlexemes).sentence
  refine ⟨_, hsentence.ofText_eq_ok, g.productions_eq_mapIdx.symm, ?_⟩
  simp [ofRules, Function.comp_def]

/-- Rules with a lone dash, a lone angle bracket, an empty body in the middle and a double. -/
def dashes : Grammar String Char :=
  .ofRules (some "Z") [⟨"D", [.terminal '>', .terminal '-', .nonterminal "D", .terminal '>']⟩,
    ⟨"D", []⟩, ⟨"E", [.terminal 'é', .terminal '-']⟩, ⟨"D", []⟩]

theorem ofText_text_dashes :
    (∀ p ∈ dashes.productions, p.toRule.Plain) ∧
      dashes.text = "D -> >-D>\nD ->\nE -> é-\nD ->\n" ∧
      ∃ g', ofText "D -> >-D>\nD ->\nE -> é-\nD ->\n" = .ok g' ∧
        g'.productions = dashes.productions ∧ g'.start = some "D" := by
  have hplain : ∀ p ∈ dashes.productions, p.toRule.Plain := by
    intro p hp
    have hletter : ∀ c, 'A' ≤ c ∧ c ≤ 'Z' →
        ∃ c', ('A' ≤ c' ∧ c' ≤ 'Z') ∧ String.singleton c = String.singleton c' :=
      fun c hc => ⟨c, hc, rfl⟩
    have hd := hletter 'D' (by decide)
    have he := hletter 'E' (by decide)
    simp only [dashes, ofRules, List.mapIdx_cons, List.mapIdx_nil, List.mem_cons, List.not_mem_nil,
      or_false] at hp
    rcases hp with rfl | rfl | rfl | rfl
    · exact ⟨by simpa [Rule.names] using hd, by simp; decide, by decide⟩
    · exact ⟨by simpa [Rule.names] using hd, by simp, by decide⟩
    · exact ⟨by simpa [Rule.names] using he, by simp; decide, by decide⟩
    · exact ⟨by simpa [Rule.names] using hd, by simp, by decide⟩
  have htext : dashes.text = "D -> >-D>\nD ->\nE -> é-\nD ->\n" := by decide
  refine ⟨hplain, htext, ?_⟩
  rw [← htext]
  exact ofText_text hplain

end Grammar

end ContextFree
