import ContextFree.Proofs.Text.Characters
import Mathlib.Data.List.Pairwise

namespace ContextFree.Token

variable {pos : Nat} {text : List Char} {t u : Token}

/-- A token is read where it stands, and it begins neither with a blank nor with a hash. -/
theorem exists_of_mem_scan (h : t ∈ scan pos text) :
    ∃ front c rest width, text = front ++ c :: rest ∧ t.start = pos + front.length ∧
      Lexeme.read c rest = (t.lexeme, width) ∧ t.stop = t.start + 1 + width ∧
      isBlank c = false ∧ c ≠ '#' := by
  fun_induction scan pos text with
  | case1 pos => exact False.elim (List.not_mem_nil h)
  | case2 pos c rest _ ih =>
    obtain ⟨front, c', rest', width, rfl, hstart, hread⟩ := ih h
    refine ⟨c :: front, c', rest', width, rfl, ?_, hread⟩
    rw [hstart, List.length_cons]
    omega
  | case3 pos rest comment _ ih =>
    obtain ⟨front, c', rest', width, hrest, hstart, hread⟩ := ih h
    refine ⟨'#' :: (rest.take comment.length ++ front), c', rest', width, ?_, ?_, hread⟩
    · rw [List.cons_append, List.append_assoc, ← hrest, List.take_append_drop]
    · have hle : comment.length ≤ rest.length := (List.takeWhile_prefix _).length_le
      rw [hstart, List.length_cons, List.length_append, List.length_take_of_le hle]
      omega
  | case4 pos c rest hblank hcomment lexeme width hread stop ih =>
    rcases List.mem_cons.mp h with rfl | h
    · exact ⟨[], c, rest, width, rfl, rfl, hread, rfl, eq_false_of_ne_true hblank, hcomment⟩
    · obtain ⟨front, c', rest', width', hrest, hstart, hread'⟩ := ih h
      refine ⟨c :: (rest.take width ++ front), c', rest', width', ?_, ?_, hread'⟩
      · rw [List.cons_append, List.append_assoc, ← hrest, List.take_append_drop]
      · rw [hstart, List.length_cons, List.length_append,
          List.length_take_of_le (Lexeme.width_le hread)]
        omega

theorem le_start_of_mem_scan (h : t ∈ scan pos text) : pos ≤ t.start := by
  obtain ⟨front, _, _, _, _, hstart, _⟩ := exists_of_mem_scan h
  rw [hstart]
  exact Nat.le_add_right ..

theorem start_lt_stop_of_mem_scan (h : t ∈ scan pos text) : t.start < t.stop := by
  obtain ⟨_, _, _, _, _, _, _, hstop, _⟩ := exists_of_mem_scan h
  omega

theorem stop_le_of_mem_scan (h : t ∈ scan pos text) : t.stop ≤ pos + text.length := by
  obtain ⟨front, c, rest, width, rfl, hstart, hread, hstop, _⟩ := exists_of_mem_scan h
  have hwidth := Lexeme.width_le hread
  rw [hstop, hstart, List.length_append, List.length_cons]
  omega

/-- A line end with the white space that it takes. -/
theorem exists_of_lineEnd_mem_scan (h : t ∈ scan pos text) (hend : t.lexeme = .lineEnd) :
    ∃ front white rest, text = front ++ '\n' :: (white ++ rest) ∧
      (∀ c ∈ white, isWhiteSpace c) ∧ t.start = pos + front.length ∧
      t.stop = t.start + 1 + white.length := by
  obtain ⟨front, c, rest, width, rfl, hstart, hread, hstop, _⟩ := exists_of_mem_scan h
  rw [hend] at hread
  obtain rfl : c = '\n' := by
    by_contra hline
    obtain ⟨_, _, _, _, hwritten, _⟩ := Lexeme.exists_written hread hline (by decide)
    generalize hl : Lexeme.lineEnd = l at hwritten
    cases hwritten <;> cases hl
  cases hread
  refine ⟨front, rest.takeWhile isWhiteSpace, rest.dropWhile isWhiteSpace, ?_,
    fun c hc => List.mem_takeWhile_imp hc, hstart, hstop⟩
  rw [List.takeWhile_append_dropWhile]

/-- Tokens stand one behind the other. -/
theorem pairwise_scan (pos : Nat) (text : List Char) :
    (scan pos text).Pairwise fun t u => t.stop ≤ u.start := by
  fun_induction scan pos text with
  | case1 pos => exact .nil
  | case2 pos c rest _ ih => exact ih
  | case3 pos rest comment _ ih => exact ih
  | case4 pos c rest _ _ lexeme width _ stop ih =>
    exact .cons (fun u hu => le_start_of_mem_scan hu) ih

/-- No token begins inside another one. -/
theorem not_inside_of_mem_scan (ht : t ∈ scan pos text) (hu : u ∈ scan pos text) :
    t.start ≤ u.start ∨ u.stop ≤ t.start := by
  obtain ⟨i, hi, rfl⟩ := List.getElem_of_mem ht
  obtain ⟨j, hj, rfl⟩ := List.getElem_of_mem hu
  have hpairwise := List.pairwise_iff_getElem.mp (pairwise_scan pos text)
  rcases Nat.lt_trichotomy i j with h | rfl | h
  · have hstop := hpairwise i j hi hj h
    have hstart := start_lt_stop_of_mem_scan (List.getElem_mem hi)
    omega
  · exact .inl (Nat.le_refl _)
  · exact .inr (hpairwise j i hj hi h)

end ContextFree.Token
