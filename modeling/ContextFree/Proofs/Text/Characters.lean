import ContextFree.Text.Token
import Mathlib.Data.List.TakeWhile

namespace ContextFree

theorem drop_length_takeWhile {α : Type} (p : α → Bool) (l : List α) :
    l.drop (l.takeWhile p).length = l.dropWhile p := by
  induction l with
  | nil => rfl
  | cons a l ih => by_cases h : p a <;> simp [h, ih]

theorem ne_of_capital {c : Char} (h : 'A' ≤ c ∧ c ≤ 'Z') {d : Char} (hd : ¬ ('A' ≤ d ∧ d ≤ 'Z')) :
    c ≠ d := by
  rintro rfl
  exact hd h

namespace Lexeme

/-- A character and those behind it make a lexeme, which is neither a line end nor invalid. -/
inductive Written : Char → List Char → Lexeme → Prop
  | arrow : Written '-' ['>'] .arrow
  | bar : Written '|' [] .bar
  | bracketed {name : List Char} (hname : name ≠ [])
      (hchars : ∀ c ∈ name, c ≠ '<' ∧ c ≠ '>' ∧ c ≠ '\n') :
      Written '<' (name ++ ['>']) (.nonterminal (String.ofList name))
  | escaped {c d : Char} (hd : Lexeme.escaped [c] = (.terminal d, 1)) :
      Written '\\' [c] (.terminal d)
  | capital {c : Char} (hc : 'A' ≤ c ∧ c ≤ 'Z') :
      Written c [] (.nonterminal (String.singleton c))
  | plain {c : Char} (hline : c ≠ '\n') (hbar : c ≠ '|') (hangle : c ≠ '<') (hescape : c ≠ '\\')
      (hcapital : ¬ ('A' ≤ c ∧ c ≤ 'Z')) : Written c [] (.terminal c)

variable {c : Char} {rest taken : List Char} {l : Lexeme} {width : Nat}

/-- No lexeme but a line end takes a line feed. -/
theorem Written.not_mem (h : Written c taken l) : '\n' ∉ taken := by
  cases h with
  | arrow => decide
  | bracketed _ hchars =>
    intro hmem
    rcases List.mem_append.mp hmem with hname | hangle
    · exact (hchars _ hname).2.2 rfl
    · exact absurd hangle (by decide)
  | escaped hd =>
    intro hmem
    rw [← List.mem_singleton.mp hmem] at hd
    cases hd
  | bar | capital _ | plain _ _ _ _ _ => exact List.not_mem_nil

theorem escaped_cons (c : Char) (rest : List Char) : escaped (c :: rest) = escaped [c] := by
  unfold escaped
  split <;> simp_all

theorem exists_escaped (c : Char) (rest : List Char) :
    ∃ d, escaped (c :: rest) = (.terminal d, 1) ∨ escaped (c :: rest) = (.invalid, 1) := by
  unfold escaped
  split <;> simp_all

theorem exists_of_escaped (h : escaped rest = (l, width)) (hvalid : l ≠ .invalid) :
    ∃ c rest' d, rest = c :: rest' ∧ escaped [c] = (.terminal d, 1) ∧ l = .terminal d ∧
      width = 1 := by
  cases rest with
  | nil =>
    cases h
    exact False.elim (hvalid rfl)
  | cons c rest' =>
    rw [escaped_cons] at h
    obtain ⟨d, hd | hd⟩ := exists_escaped c []
    · rw [hd] at h
      cases h
      exact ⟨c, rest', d, rfl, hd, rfl, rfl⟩
    · rw [hd] at h
      cases h
      exact False.elim (hvalid rfl)

theorem bracketed_append {name : List Char} (hname : name ≠ [])
    (hchars : ∀ c ∈ name, c ≠ '<' ∧ c ≠ '>' ∧ c ≠ '\n') (rest : List Char) :
    bracketed (name ++ '>' :: rest) = (.nonterminal (String.ofList name), name.length + 1) := by
  have htake : (name ++ '>' :: rest).takeWhile
      (fun c => decide (c ≠ '<' ∧ c ≠ '>' ∧ c ≠ '\n')) = name := by
    rw [List.takeWhile_append_of_pos fun c hc => decide_eq_true (hchars c hc)]
    simp
  rw [bracketed, htake]
  simp [hname]

theorem exists_of_bracketed (h : bracketed rest = (l, width)) (hvalid : l ≠ .invalid) :
    ∃ name rest', rest = name ++ '>' :: rest' ∧ width = name.length + 1 ∧ name ≠ [] ∧
      (∀ c ∈ name, c ≠ '<' ∧ c ≠ '>' ∧ c ≠ '\n') ∧ l = .nonterminal (String.ofList name) := by
  rw [bracketed, drop_length_takeWhile] at h
  have hsplit := List.takeWhile_append_dropWhile
    (p := fun c => decide (c ≠ '<' ∧ c ≠ '>' ∧ c ≠ '\n')) (l := rest)
  generalize hname : rest.takeWhile (fun c => decide (c ≠ '<' ∧ c ≠ '>' ∧ c ≠ '\n')) = name
    at h hsplit
  have hchars : ∀ c ∈ name, c ≠ '<' ∧ c ≠ '>' ∧ c ≠ '\n' := by
    intro c hc
    rw [← hname] at hc
    simpa using List.mem_takeWhile_imp hc
  cases hend : rest.dropWhile (fun c => decide (c ≠ '<' ∧ c ≠ '>' ∧ c ≠ '\n')) with
  | nil =>
    rw [hend] at h
    cases h
    exact False.elim (hvalid rfl)
  | cons c rest' =>
    rw [hend] at h hsplit
    by_cases hclosed : c = '>' ∧ name ≠ []
    · obtain ⟨rfl, hne⟩ := hclosed
      simp only [hne, ne_eq, not_false_eq_true, and_self, if_true] at h
      cases h
      exact ⟨name, rest', hsplit.symm, rfl, hne, hchars, rfl⟩
    · simp only [hclosed, if_false] at h
      cases h
      exact False.elim (hvalid rfl)

theorem escaped_width_le (h : escaped rest = (l, width)) : width ≤ rest.length := by
  cases rest with
  | nil =>
    cases h
    exact Nat.le_refl _
  | cons c rest =>
    obtain ⟨d, hd | hd⟩ := exists_escaped c rest
    all_goals
      rw [hd] at h
      cases h
      exact Nat.le_add_left ..

theorem bracketed_width_le (h : bracketed rest = (l, width)) : width ≤ rest.length := by
  simp only [bracketed] at h
  split at h
  · cases h
    exact (List.takeWhile_prefix _).length_le
  · rename_i hdrop
    have hlength := congrArg List.length hdrop
    rw [List.length_drop, List.length_cons] at hlength
    have hwidth := congrArg Prod.snd h
    dsimp only at hwidth
    omega

/-- Nothing is taken behind the end of a text. -/
theorem width_le (h : Lexeme.read c rest = (l, width)) : width ≤ rest.length := by
  unfold Lexeme.read at h
  repeat' split at h
  · cases h
    exact (List.takeWhile_prefix _).length_le
  · rename_i harrow
    cases h
    obtain ⟨rest', rfl⟩ := List.head?_eq_some_iff.mp harrow.2
    exact Nat.le_add_left ..
  · cases h
    exact Nat.zero_le _
  · exact bracketed_width_le h
  · exact escaped_width_le h
  · cases h
    exact Nat.zero_le _
  · cases h
    exact Nat.zero_le _

/-- More than one character is taken by line ends, by names in brackets, by escaped terminals and by
arrows. -/
theorem begins_of_width_pos (h : Lexeme.read c rest = (l, width)) (hwidth : 0 < width) :
    (c = '\n' ∨ c = '<' ∨ c = '\\') ∨ rest.head? = some '>' ∧ width = 1 := by
  unfold Lexeme.read at h
  repeat' split at h
  · rename_i hline
    exact .inl (.inl hline)
  · rename_i harrow
    cases h
    exact .inr ⟨harrow.2, rfl⟩
  · cases h
    exact absurd hwidth (Nat.lt_irrefl 0)
  · rename_i hangle
    exact .inl (.inr (.inl hangle))
  · rename_i hescape
    exact .inl (.inr (.inr hescape))
  · cases h
    exact absurd hwidth (Nat.lt_irrefl 0)
  · cases h
    exact absurd hwidth (Nat.lt_irrefl 0)

/-- What makes a lexeme is read whatever follows, unless this completes an arrow. -/
theorem Written.read (h : Written c taken l)
    (hdash : c :: taken = ['-'] → rest.head? ≠ some '>') :
    Lexeme.read c (taken ++ rest) = (l, taken.length) := by
  cases h with
  | arrow => rfl
  | bar => rfl
  | bracketed hname hchars =>
    rw [List.append_assoc, List.length_append]
    exact bracketed_append hname hchars rest
  | @escaped c _ hd =>
    rw [← escaped_cons c rest] at hd
    exact hd
  | capital hc =>
    simp [Lexeme.read, hc, ne_of_capital hc (d := '\n') (by decide),
      ne_of_capital hc (d := '-') (by decide), ne_of_capital hc (d := '|') (by decide),
      ne_of_capital hc (d := '<') (by decide), ne_of_capital hc (d := '\\') (by decide)]
  | plain hline hbar hangle hescape hcapital =>
    have harrow : ¬ (c = '-' ∧ rest.head? = some '>') := fun h => hdash (by rw [h.1]) h.2
    rw [List.nil_append, Lexeme.read, if_neg hline, if_neg harrow, if_neg hbar, if_neg hangle,
      if_neg hescape, if_neg hcapital]
    rfl

/-- What is read is made of the characters that it takes. -/
theorem exists_written (h : Lexeme.read c rest = (l, width)) (hline : c ≠ '\n')
    (hvalid : l ≠ .invalid) :
    ∃ taken rest', rest = taken ++ rest' ∧ width = taken.length ∧ Written c taken l ∧
      (c :: taken = ['-'] → rest'.head? ≠ some '>') := by
  rw [Lexeme.read, if_neg hline] at h
  by_cases harrow : c = '-' ∧ rest.head? = some '>'
  · rw [if_pos harrow] at h
    obtain ⟨rfl, hhead⟩ := harrow
    cases h
    obtain ⟨rest', rfl⟩ := List.head?_eq_some_iff.mp hhead
    exact ⟨['>'], rest', rfl, rfl, .arrow, by simp⟩
  rw [if_neg harrow] at h
  by_cases hbar : c = '|'
  · rw [if_pos hbar] at h
    cases h
    rw [hbar]
    exact ⟨[], rest, rfl, rfl, .bar, by simp⟩
  rw [if_neg hbar] at h
  by_cases hangle : c = '<'
  · rw [if_pos hangle] at h
    obtain ⟨name, rest', rfl, rfl, hname, hchars, rfl⟩ := exists_of_bracketed h hvalid
    rw [hangle]
    exact ⟨name ++ ['>'], rest', by simp, by simp, .bracketed hname hchars, by simp⟩
  rw [if_neg hangle] at h
  by_cases hescape : c = '\\'
  · rw [if_pos hescape] at h
    obtain ⟨c', rest', d, rfl, hd, rfl, rfl⟩ := exists_of_escaped h hvalid
    rw [hescape]
    exact ⟨[c'], rest', rfl, rfl, .escaped hd, by simp⟩
  rw [if_neg hescape] at h
  by_cases hcapital : 'A' ≤ c ∧ c ≤ 'Z'
  · rw [if_pos hcapital] at h
    cases h
    refine ⟨[], rest, rfl, rfl, .capital hcapital, ?_⟩
    intro hdash
    exact absurd (List.cons.inj hdash).1 (ne_of_capital hcapital (by decide))
  · rw [if_neg hcapital] at h
    cases h
    refine ⟨[], rest, rfl, rfl, .plain hline hbar hangle hescape hcapital, ?_⟩
    intro hdash hhead
    exact harrow ⟨(List.cons.inj hdash).1, hhead⟩

end Lexeme

end ContextFree
