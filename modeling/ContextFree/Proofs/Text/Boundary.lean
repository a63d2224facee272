import ContextFree.Proofs.Text.Lexemes
import ContextFree.Proofs.Text.Spans
import ContextFree.Proofs.Text.Spelling

namespace ContextFree

variable {c : Char} {chunk front back rest : List Char}

namespace Place

/-- White space gives line ends only. -/
theorem exists_lexemes_dropWhile (text : List Char) :
    ∃ ends : List Lexeme, (∀ l ∈ ends, l = .lineEnd) ∧
      lexemes text = ends ++ lexemes (text.dropWhile isWhiteSpace) := by
  induction text with
  | nil => exact ⟨[], by simp, by simp⟩
  | cons c text ih =>
    by_cases hwhite : isWhiteSpace c
    · rw [List.dropWhile_cons_of_pos hwhite]
      by_cases hline : c = '\n'
      · refine ⟨[.lineEnd], by simp, ?_⟩
        rw [hline, lexemes_lineEnd]
        rfl
      · rw [lexemes_blank (by simp [isBlank, hwhite, hline])]
        exact ih
    · rw [List.dropWhile_cons_of_neg hwhite]
      exact ⟨[], by simp, rfl⟩

/-- The white space that a line end takes could as well be read apart from it. -/
theorem spelled?_lexemes_lineEnd (place : Place) {white : List Char}
    (hwhite : ∀ c ∈ white, isWhiteSpace c) (rest : List Char) :
    place.spelled? (lexemes ('\n' :: (white ++ rest))) =
      place.spelled? (.lineEnd :: lexemes rest) := by
  obtain ⟨ends, hends, hrest⟩ := exists_lexemes_dropWhile rest
  rw [lexemes_lineEnd, List.dropWhile_append_of_pos hwhite, hrest,
    spelled?_lineEnd_lineEnds hends]

end Place

/-- A place in a text between what stands in front of it and what stands behind it. The lexemes in
front of it, and whether it belongs to a comment, do not depend on what stands behind it, unless
this completes an arrow. Line ends are told apart only as far as this matters to rules. -/
inductive Boundary (front back : List Char) : Prop
  | between (ls : List Lexeme)
      (h : ∀ rest, (rest.head? = some '>' → back.head? = some '>') → ∀ place : Place,
        place.spelled? (lexemes (front ++ rest)) = place.spelled? (ls ++ lexemes rest)) :
      Boundary front back
  | inComment (ls : List Lexeme)
      (h : ∀ rest, (rest.head? = some '>' → back.head? = some '>') → ∀ place : Place,
        place.spelled? (lexemes (front ++ rest)) =
          place.spelled? (ls ++ lexemes (rest.dropWhile (· ≠ '\n')))) :
      Boundary front back

namespace Boundary

theorem nil (back : List Char) : Boundary [] back :=
  .between [] fun _ _ _ => rfl

/-- What is read on its own may stand in front of a boundary. -/
theorem prepend (h : Boundary front back) (chunk : List Char) (first : List Lexeme)
    (hchunk : ∀ rest, (rest.head? = some '>' → back.head? = some '>') → ∀ place : Place,
      place.spelled? (lexemes (chunk ++ (front ++ rest))) =
        place.spelled? (first ++ lexemes (front ++ rest))) :
    Boundary (chunk ++ front) back := by
  cases h with
  | between ls h =>
    refine .between (first ++ ls) fun rest hrest place => ?_
    rw [List.append_assoc, hchunk rest hrest, List.append_assoc]
    exact Place.spelled?_eq_of_suffix (h rest hrest) first place
  | inComment ls h =>
    refine .inComment (first ++ ls) fun rest hrest place => ?_
    rw [List.append_assoc, hchunk rest hrest, List.append_assoc]
    exact Place.spelled?_eq_of_suffix (h rest hrest) first place

theorem blank (h : Boundary front back) (hblank : isBlank c) : Boundary (c :: front) back :=
  h.prepend [c] [] fun _ _ place =>
    congrArg place.spelled? (lexemes_blank hblank _)

theorem comment (hfront : '\n' ∉ front) : Boundary ('#' :: front) back :=
  .inComment [] fun rest _ place => congrArg place.spelled? (lexemes_comment hfront rest)

theorem behindComment {text : List Char} (h : Boundary ('\n' :: front) back)
    (htext : '\n' ∉ text) : Boundary ('#' :: (text ++ '\n' :: front)) back :=
  h.prepend ('#' :: text) [] fun _ _ place =>
    congrArg place.spelled? (lexemes_comment htext _)

theorem lineEnd (h : Boundary front back) {white : List Char}
    (hwhite : ∀ c ∈ white, isWhiteSpace c) : Boundary ('\n' :: (white ++ front)) back := by
  refine h.prepend ('\n' :: white) [.lineEnd] fun rest _ place => ?_
  exact place.spelled?_lexemes_lineEnd hwhite _

theorem written {taken : List Char} {l : Lexeme} (h : Boundary front back)
    (hblank : isBlank c = false) (hcomment : c ≠ '#') (hread : Lexeme.Written c taken l)
    (hdash : c :: taken = ['-'] → (front ++ back).head? ≠ some '>') :
    Boundary (c :: (taken ++ front)) back := by
  refine h.prepend (c :: taken) [l] fun rest hrest place => ?_
  rw [List.cons_append, lexemes_written hblank hcomment hread]
  · rfl
  · intro htaken hhead
    apply hdash htaken
    cases front with
    | nil => exact hrest hhead
    | cons c' front => exact hhead

/-- Whatever is read, if it ends in front of a boundary. -/
theorem lexeme {l : Lexeme} {width : Nat} (h : Boundary (front.drop width) back)
    (hblank : isBlank c = false) (hcomment : c ≠ '#')
    (hread : Lexeme.read c (front ++ back) = (l, width)) (hvalid : l ≠ .invalid)
    (hwidth : width ≤ front.length) : Boundary (c :: front) back := by
  have htake : (front ++ back).take width = front.take width :=
    List.take_append_of_le_length hwidth
  have hdrop : (front ++ back).drop width = front.drop width ++ back :=
    List.drop_append_of_le_length hwidth
  rw [← List.take_append_drop width front, ← htake]
  by_cases hline : c = '\n'
  · subst hline
    cases hread
    rw [← List.prefix_iff_eq_take.mp (List.takeWhile_prefix isWhiteSpace)]
    exact h.lineEnd fun c hc => List.mem_takeWhile_imp hc
  · obtain ⟨taken, rest, hrest, rfl, hwritten, hdash⟩ :=
      Lexeme.exists_written hread hline hvalid
    rw [hrest, List.drop_left] at hdrop
    rw [hdrop] at hdash
    rw [hrest, List.take_left]
    exact h.written hblank hcomment hwritten hdash

end Boundary

namespace Token

variable {pos : Nat}

/-- Where no token is, there is a boundary. -/
theorem boundary_of_scan (pos : Nat) (front back : List Char)
    (hvalid : ∀ t ∈ scan pos (front ++ back), t.lexeme ≠ .invalid)
    (houtside : ∀ t ∈ scan pos (front ++ back),
      pos + front.length ≤ t.start ∨ t.stop ≤ pos + front.length) :
    Boundary front back := by
  generalize htext : front ++ back = text at hvalid houtside
  fun_induction scan pos text generalizing front with
  | case1 pos =>
    rw [(List.append_eq_nil_iff.mp htext).1]
    exact .nil back
  | case2 pos c text hblank ih =>
    cases front with
    | nil => exact .nil back
    | cons c front =>
      obtain ⟨rfl, rfl⟩ := List.cons.inj ((List.cons_append ..).symm.trans htext)
      refine (ih front rfl hvalid fun t ht => ?_).blank hblank
      simpa [Nat.add_assoc, Nat.add_comm 1] using houtside t ht
  | case3 pos text comment hblank ih =>
    cases front with
    | nil => exact .nil back
    | cons c front =>
      obtain ⟨rfl, rfl⟩ := List.cons.inj ((List.cons_append ..).symm.trans htext)
      by_cases hline : '\n' ∈ front
      · obtain ⟨skipped, front, rfl, hskipped⟩ := List.eq_append_cons_of_mem hline
        have hcomment : comment = skipped := by
          have hstop : ∀ c ∈ skipped, decide (c ≠ '\n') = true := fun c hc =>
            decide_eq_true (ne_of_mem_of_not_mem hc hskipped)
          subst comment
          rw [List.append_assoc, List.takeWhile_append_of_pos hstop]
          simp
        refine (ih ('\n' :: front) ?_ hvalid fun t ht => ?_).behindComment hskipped
        · rw [hcomment]
          simp
        · have hout := houtside t ht
          rw [hcomment]
          simp only [List.length_cons, List.length_append] at hout ⊢
          omega
      · exact .comment hline
  | case4 pos c text hblank hcomment lexeme width hread stop ih =>
    cases front with
    | nil => exact .nil back
    | cons c front =>
      obtain ⟨rfl, rfl⟩ := List.cons.inj ((List.cons_append ..).symm.trans htext)
      obtain ⟨hlexeme, hvalid⟩ := List.forall_mem_cons.mp hvalid
      obtain ⟨hfirst, houtside⟩ := List.forall_mem_cons.mp houtside
      have hwidth : width ≤ front.length := by
        simp only [List.length_cons] at hfirst
        omega
      have hbehind : Boundary (front.drop width) back := by
        refine ih _ (List.drop_append_of_le_length hwidth).symm hvalid fun t ht => ?_
        have hout := houtside t ht
        rw [List.length_cons] at hout
        rw [List.length_drop]
        omega
      exact hbehind.lexeme (eq_false_of_ne_true hblank) hcomment hread hlexeme hwidth

end Token

end ContextFree
