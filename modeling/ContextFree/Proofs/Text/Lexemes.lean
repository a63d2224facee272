import ContextFree.Proofs.Text.Characters
import ContextFree.Proofs.Text.Sentence
import Mathlib.Data.List.Induction

namespace ContextFree

def lexemes (text : List Char) : List Lexeme :=
  (Token.scan 0 text).map Token.lexeme

section Scan

variable {c : Char}

theorem map_lexeme_scan (pos pos' : Nat) (text : List Char) :
    (Token.scan pos text).map Token.lexeme = (Token.scan pos' text).map Token.lexeme := by
  fun_induction Token.scan pos text generalizing pos' with
  | case1 pos => rw [Token.scan]
  | case2 pos c rest hblank ih =>
    rw [Token.scan, if_pos hblank]
    exact ih _
  | case3 pos rest comment hblank ih =>
    rw [Token.scan, if_neg hblank, if_pos rfl]
    exact ih _
  | case4 pos c rest hblank hcomment lexeme width hread stop ih =>
    rw [Token.scan, if_neg hblank, if_neg hcomment, hread, List.map_cons, List.map_cons]
    exact congrArg (lexeme :: ·) (ih _)

@[simp]
theorem lexemes_nil : lexemes [] = [] := by
  rw [lexemes, Token.scan, List.map_nil]

theorem lexemes_blank (h : isBlank c) (rest : List Char) : lexemes (c :: rest) = lexemes rest := by
  rw [lexemes, Token.scan, if_pos h]
  exact map_lexeme_scan ..

theorem lexemes_blanks {blanks : List Char} (h : ∀ c ∈ blanks, isBlank c) (rest : List Char) :
    lexemes (blanks ++ rest) = lexemes rest := by
  induction blanks with
  | nil => rfl
  | cons c blanks ih =>
    obtain ⟨hc, hblanks⟩ := List.forall_mem_cons.mp h
    rw [List.cons_append, lexemes_blank hc, ih hblanks]

/-- A comment is skipped as far as the next line end. -/
theorem lexemes_comment {text : List Char} (h : '\n' ∉ text) (rest : List Char) :
    lexemes ('#' :: (text ++ rest)) = lexemes (rest.dropWhile (· ≠ '\n')) := by
  have hskip : (text ++ rest).dropWhile (· ≠ '\n') = rest.dropWhile (· ≠ '\n') :=
    List.dropWhile_append_of_pos fun c hc => decide_eq_true (ne_of_mem_of_not_mem hc h)
  rw [lexemes, Token.scan, if_neg (by decide), if_pos rfl, ← hskip, ← drop_length_takeWhile]
  exact map_lexeme_scan ..

/-- A character that is neither blank nor a hash begins a lexeme. -/
theorem lexemes_cons (hblank : isBlank c = false) (hcomment : c ≠ '#') {lexeme : Lexeme}
    {width : Nat} (rest : List Char) (h : Lexeme.read c rest = (lexeme, width)) :
    lexemes (c :: rest) = lexeme :: lexemes (rest.drop width) := by
  rw [lexemes, Token.scan, if_neg (by simp [hblank]), if_neg hcomment, h, List.map_cons]
  exact congrArg (lexeme :: ·) (map_lexeme_scan ..)

/-- A line end takes the white space behind it. -/
theorem lexemes_lineEnd (rest : List Char) :
    lexemes ('\n' :: rest) = .lineEnd :: lexemes (rest.dropWhile isWhiteSpace) := by
  have hread : Lexeme.read '\n' rest = (.lineEnd, (rest.takeWhile isWhiteSpace).length) := rfl
  rw [lexemes_cons rfl (by decide) rest hread, drop_length_takeWhile]

/-- The characters of a lexeme are read as this lexeme, unless what follows makes an arrow. -/
theorem lexemes_written (hblank : isBlank c = false) (hcomment : c ≠ '#') {taken rest : List Char}
    {lexeme : Lexeme} (h : Lexeme.Written c taken lexeme)
    (hdash : c :: taken = ['-'] → rest.head? ≠ some '>') :
    lexemes (c :: (taken ++ rest)) = lexeme :: lexemes rest := by
  rw [lexemes_cons hblank hcomment _ (h.read hdash), List.drop_left]

end Scan

/-- The lexemes of a line that holds one rule, without its line end. -/
def Rule.lexemes (r : Rule String Char) : List Lexeme :=
  .nonterminal r.head :: .arrow :: r.body.map .ofSymbol

section Lines

variable {write : Rule String Char → String} {rules : List (Rule String Char)} {rest : List Char}

/-- If no line begins with white space, neither do lines in front of what does not. -/
theorem takeWhile_lines
    (hstart : ∀ r ∈ rules, ∃ c cs, (write r).toList = c :: cs ∧ isWhiteSpace c = false)
    (hrest : rest.takeWhile isWhiteSpace = []) :
    ((String.join (rules.map fun r => write r ++ "\n")).toList ++ rest).takeWhile isWhiteSpace =
      [] := by
  cases rules with
  | nil => simpa using hrest
  | cons r rules =>
    obtain ⟨c, cs, hr, hc⟩ := hstart r List.mem_cons_self
    simp [hr, hc]

/-- Rules that are written one a line are read one after the other. White space at the beginning of
a line would belong to the line end in front of it. -/
theorem lexemes_lines
    (hline : ∀ r ∈ rules, ∀ rest,
      lexemes ((write r).toList ++ '\n' :: rest) = r.lexemes ++ lexemes ('\n' :: rest))
    (hstart : ∀ r ∈ rules, ∃ c cs, (write r).toList = c :: cs ∧ isWhiteSpace c = false)
    (hrest : rest.takeWhile isWhiteSpace = []) :
    lexemes ((String.join (rules.map fun r => write r ++ "\n")).toList ++ rest) =
      (rules.flatMap fun r => r.lexemes ++ [.lineEnd]) ++ lexemes rest := by
  induction rules with
  | nil => simp
  | cons r rules ih =>
    obtain ⟨hr, hrules⟩ := List.forall_mem_cons.mp hline
    obtain ⟨_, hstarts⟩ := List.forall_mem_cons.mp hstart
    have hend : Lexeme.read '\n'
        ((String.join (rules.map fun r => write r ++ "\n")).toList ++ rest) = (.lineEnd, 0) :=
      congrArg (fun blank => (Lexeme.lineEnd, blank.length)) (takeWhile_lines hstarts hrest)
    have hsplit : (String.join ((r :: rules).map fun r => write r ++ "\n")).toList ++ rest =
        (write r).toList ++ '\n' ::
          ((String.join (rules.map fun r => write r ++ "\n")).toList ++ rest) := by
      simp
    rw [hsplit, hr, lexemes_cons rfl (by decide) _ hend, List.drop_zero,
      ih hrules hstarts]
    simp

end Lines

section Sentence

variable {ts : List Token} {r : Rule String Char}

theorem Clause.of_lexemes (h : ts.map Token.lexeme = r.lexemes) : Clause ts [r] := by
  obtain ⟨head, ts, rfl, hhead, hts⟩ := List.map_eq_cons_iff.mp h
  obtain ⟨arrow, ts, rfl, harrow, hbody⟩ := List.map_eq_cons_iff.mp hts
  exact .intro hhead harrow (.one hbody)

theorem Lines.of_lexemes {rules : List (Rule String Char)}
    (h : ts.map Token.lexeme = rules.flatMap fun r => r.lexemes ++ [.lineEnd]) :
    Lines ts rules := by
  induction rules using List.reverseRecOn generalizing ts with
  | nil =>
    obtain rfl := List.map_eq_nil_iff.mp h
    exact .nil
  | append_singleton rules r ih =>
    rw [List.flatMap_append, List.flatMap_singleton, ← List.append_assoc] at h
    obtain ⟨ts, ends, rfl, hts, hend⟩ := List.map_eq_append_iff.mp h
    obtain ⟨t, rest, rfl, ht, hrest⟩ := List.map_eq_cons_iff.mp hend
    obtain rfl := List.map_eq_nil_iff.mp hrest
    obtain ⟨front, line, rfl, hfront, hline⟩ := List.map_eq_append_iff.mp hts
    exact (ih hfront).clause (.of_lexemes hline) ht

end Sentence

end ContextFree
