import ContextFree.Proofs.Text.Exact
import ContextFree.Proofs.Text.Spans

namespace ContextFree

namespace Token

variable {pos i hash : Nat} {text back : List Char} {c : Char} {t : Token} {ts : List Token}

/-- A position that lies in the span of no token. -/
def Uncovered (ts : List Token) (i : Nat) : Prop :=
  ∀ t ∈ ts, i < t.start ∨ t.stop ≤ i

/-- A comment that begins with a hash between the tokens and reaches a position in the same line. -/
structure Comment (ts : List Token) (text : List Char) (hash i : Nat) : Prop where
  le : hash ≤ i
  opens : text[hash]? = some '#'
  between : Uncovered ts hash
  line : ∀ j, hash ≤ j → j ≤ i → text[j]? ≠ some '\n'

def InComment (ts : List Token) (text : List Char) (i : Nat) : Prop :=
  ∃ hash, Comment ts text hash i

/-- A position behind the first character of a token that may take white space: of a line end, of a
name in brackets or of an escaped character. -/
def Enclosed (ts : List Token) (text : List Char) (i : Nat) : Prop :=
  ∃ t ∈ ts, t.start < i ∧ i < t.stop ∧
    (text[t.start]? = some '\n' ∨ text[t.start]? = some '<' ∨ text[t.start]? = some '\\')

theorem uncovered_cons :
    Uncovered (t :: ts) i ↔ (i < t.start ∨ t.stop ≤ i) ∧ Uncovered ts i :=
  List.forall_mem_cons

theorem not_uncovered_iff : ¬ Uncovered ts i ↔ ∃ t ∈ ts, t.start ≤ i ∧ i < t.stop := by
  simp [Uncovered]

theorem uncovered_of_lt (h : i < pos) : Uncovered (scan pos text) i :=
  fun _ ht => .inl (Nat.lt_of_lt_of_le h (le_start_of_mem_scan ht))

theorem uncovered_scan_nil (pos i : Nat) : Uncovered (scan pos []) i := by
  rw [scan]
  exact List.forall_mem_nil _

section Scan

theorem getElem?_of_drop (h : text.drop pos = c :: back) : text[pos]? = some c := by
  rw [← Nat.add_zero pos, ← List.getElem?_drop, h]
  rfl

theorem drop_of_drop (h : text.drop pos = c :: back) (n : Nat) :
    text.drop (pos + 1 + n) = back.drop n := by
  rw [Nat.add_assoc, ← List.drop_drop, h, Nat.add_comm 1 n, List.drop_succ_cons]

/-- A comment holds no line end. -/
theorem ne_lineEnd_of_drop (h : text.drop pos = '#' :: back) {j : Nat} (hj : pos ≤ j)
    (hlt : j < pos + 1 + (back.takeWhile (· ≠ '\n')).length) : text[j]? ≠ some '\n' := by
  obtain ⟨k, rfl⟩ := Nat.exists_eq_add_of_le hj
  rw [← List.getElem?_drop, h]
  cases k with
  | zero => exact fun hline => absurd (Option.some.inj hline) (by decide)
  | succ k =>
    have hk : k < (back.takeWhile (· ≠ '\n')).length := by omega
    rw [List.getElem?_cons_succ, ← List.takeWhile_append_dropWhile (p := (· ≠ '\n')) (l := back),
      List.getElem?_append_left hk]
    intro hline
    have hne := List.mem_takeWhile_imp (List.mem_of_getElem? hline)
    exact absurd rfl (of_decide_eq_true hne)

/-- What no token covers is a blank or belongs to a comment. -/
theorem blank_or_comment (hback : text.drop pos = back) (hpos : pos ≤ i)
    (hc : text[i]? = some c) (h : Uncovered (scan pos back) i) :
    isBlank c ∨ ∃ hash, pos ≤ hash ∧ Comment (scan pos back) text hash i := by
  fun_induction scan pos back with
  | case1 pos =>
    rw [List.getElem?_eq_none ((List.drop_eq_nil_iff.mp hback).trans hpos)] at hc
    cases hc
  | case2 pos d rest hblank ih =>
    rcases Nat.eq_or_lt_of_le hpos with rfl | hlt
    · rw [getElem?_of_drop hback] at hc
      cases hc
      exact .inl hblank
    · refine (ih (drop_of_drop hback 0) hlt h).imp_right ?_
      rintro ⟨hash, hle, hcomment⟩
      exact ⟨hash, Nat.le_of_succ_le hle, hcomment⟩
  | case3 pos rest comment _ ih =>
    by_cases hlt : i < pos + 1 + comment.length
    · refine .inr ⟨pos, Nat.le_refl _, hpos, getElem?_of_drop hback, ?_, fun j hj hji => ?_⟩
      · exact uncovered_of_lt (by omega)
      · exact ne_lineEnd_of_drop hback hj (Nat.lt_of_le_of_lt hji hlt)
    · refine (ih (drop_of_drop hback _) (Nat.le_of_not_lt hlt) h).imp_right ?_
      rintro ⟨hash, hle, hcomment⟩
      exact ⟨hash, by omega, hcomment⟩
  | case4 pos d rest _ _ lexeme width _ stop ih =>
    obtain ⟨hfirst, hrest⟩ := uncovered_cons.mp h
    have hstop : stop ≤ i := hfirst.resolve_left (Nat.not_lt.mpr hpos)
    refine (ih (drop_of_drop hback _) hstop hrest).imp_right ?_
    rintro ⟨hash, hle, hcomment⟩
    have hbetween : Uncovered (⟨lexeme, pos, stop⟩ :: scan stop (rest.drop width)) hash :=
      uncovered_cons.mpr ⟨.inr hle, hcomment.between⟩
    exact ⟨hash, by omega, hcomment.le, hcomment.opens, hbetween, hcomment.line⟩

/-- No token covers a position in a comment. -/
theorem Comment.uncovered (hback : text.drop pos = back) (hpos : pos ≤ hash)
    (h : Comment (scan pos back) text hash i) : Uncovered (scan pos back) i := by
  fun_induction scan pos back with
  | case1 pos => exact List.forall_mem_nil _
  | case2 pos d rest hblank ih =>
    rcases Nat.eq_or_lt_of_le hpos with rfl | hlt
    · have hhash := h.opens
      rw [getElem?_of_drop hback] at hhash
      cases hhash
      cases hblank
    · exact ih (drop_of_drop hback 0) hlt h
  | case3 pos rest comment _ ih =>
    have hrest := drop_of_drop hback comment.length
    by_cases hlt : hash < pos + 1 + comment.length
    · cases hnext : rest.drop comment.length with
      | nil => exact uncovered_scan_nil _ _
      | cons d rest' =>
        -- The line goes on as far as the comment that has been skipped.
        have hd : d = '\n' := by
          have hstop := List.head?_dropWhile_not (· ≠ '\n') rest
          rw [← drop_length_takeWhile, hnext] at hstop
          simpa using hstop
        rw [hnext, hd] at hrest
        refine uncovered_of_lt (Nat.lt_of_not_le fun hle => ?_)
        exact h.line _ (Nat.le_of_lt hlt) hle (getElem?_of_drop hrest)
    · exact ih hrest (Nat.le_of_not_lt hlt) h
  | case4 pos d rest _ _ lexeme width _ stop ih =>
    obtain ⟨hfirst, hrest⟩ := uncovered_cons.mp h.between
    have hstop : stop ≤ hash := hfirst.resolve_left (Nat.not_lt.mpr hpos)
    have hbehind := ih (drop_of_drop hback _) hstop ⟨h.le, h.opens, hrest, h.line⟩
    exact uncovered_cons.mpr ⟨.inr (hstop.trans h.le), hbehind⟩

/-- Each token takes a character of its own. -/
theorem length_scan_le (pos : Nat) (text : List Char) :
    (scan pos text).length ≤ text.length := by
  fun_induction scan pos text with
  | case1 pos => exact Nat.le_refl _
  | case2 pos c rest _ ih => exact Nat.le_succ_of_le ih
  | case3 pos rest comment _ ih =>
    rw [List.length_drop] at ih
    rw [List.length_cons]
    omega
  | case4 pos c rest _ _ lexeme width _ stop ih =>
    rw [List.length_drop] at ih
    rw [List.length_cons, List.length_cons]
    omega

end Scan

/-- A token that takes a blank begins with a line feed, with an angle bracket or with a backslash.
-/
theorem enclosed_of_blank (ht : t ∈ scan 0 text) (hstart : t.start ≤ i) (hstop : i < t.stop)
    (hc : text[i]? = some c) (hblank : isBlank c) : Enclosed (scan 0 text) text i := by
  obtain ⟨front, d, rest, width, htext, hfront, hread, hwidth, hd, _⟩ := exists_of_mem_scan ht
  rw [Nat.zero_add] at hfront
  have hback : text.drop t.start = d :: rest := by rw [htext, hfront, List.drop_left]
  have hfirst := getElem?_of_drop hback
  have hlt : t.start < i := by
    refine Nat.lt_of_le_of_ne hstart fun heq => ?_
    rw [← heq, hfirst] at hc
    cases hc
    rw [hblank] at hd
    cases hd
  rcases Lexeme.begins_of_width_pos hread (by omega) with hbegins | ⟨hangle, rfl⟩
  · refine ⟨t, ht, hlt, hstop, ?_⟩
    rw [hfirst]
    rcases hbegins with rfl | rfl | rfl
    · exact .inl rfl
    · exact .inr (.inl rfl)
    · exact .inr (.inr rfl)
  · -- The angle bracket of an arrow is no blank.
    obtain ⟨rest', rfl⟩ := List.head?_eq_some_iff.mp hangle
    obtain rfl : i = t.start + 1 := by omega
    have hsecond := getElem?_of_drop (drop_of_drop hback 0)
    rw [Nat.add_zero, hc] at hsecond
    cases hsecond
    cases hblank

/-- Tokens cover everything but comments and the blanks that they do not enclose. -/
theorem uncovered_iff (hc : text[i]? = some c) :
    Uncovered (scan 0 text) i ↔
      InComment (scan 0 text) text i ∨ isBlank c ∧ ¬ Enclosed (scan 0 text) text i := by
  constructor
  · intro h
    rcases blank_or_comment List.drop_zero (Nat.zero_le i) hc h with hblank | ⟨hash, _, hcomment⟩
    · refine .inr ⟨hblank, ?_⟩
      rintro ⟨t, ht, hstart, hstop, _⟩
      exact not_uncovered_iff.mpr ⟨t, ht, Nat.le_of_lt hstart, hstop⟩ h
    · exact .inl ⟨hash, hcomment⟩
  · rintro (⟨hash, hcomment⟩ | ⟨hblank, henclosed⟩)
    · exact hcomment.uncovered List.drop_zero (Nat.zero_le hash)
    · by_contra hcovered
      obtain ⟨t, ht, hstart, hstop⟩ := not_uncovered_iff.mp hcovered
      exact henclosed (enclosed_of_blank ht hstart hstop hc hblank)

theorem exists_covering_lineEnd (hline : text[i]? = some '\n') :
    ∃ t ∈ scan 0 text, t.start ≤ i ∧ i < t.stop := by
  rw [← not_uncovered_iff, uncovered_iff hline]
  rintro (⟨hash, hcomment⟩ | ⟨hblank, _⟩)
  · exact hcomment.line i hcomment.le (Nat.le_refl i) hline
  · cases hblank

end Token

variable {ts : List Token} {e : SyntaxError}

/-- The span of a syntax error is that of a token, or it is empty behind a last token that is the
head of a rule. -/
theorem Offence.span (h : Offence ts e) :
    (∃ t ∈ ts, e.start = t.start ∧ e.stop = t.stop) ∨
      ∃ front head v, ts = front ++ [head] ∧ head.lexeme = .nonterminal v ∧
        e = ⟨.arrow, head.stop, head.stop⟩ := by
  cases h with
  | @misplaced front rest t fault _ _ _ => exact .inl ⟨t, by simp, rfl, rfl⟩
  | @cutOff front head v rules _ hhead _ => exact .inr ⟨front, head, v, rfl, hhead, rfl⟩

theorem offence_of_ofText {text : String} (h : Grammar.ofText text = .error e) :
    Offence (Token.ofText text) e := by
  rw [← readRules_eq_error]
  rw [Grammar.ofText] at h
  cases hread : readRules .before (Token.ofText text) with
  | error e' =>
    rw [hread] at h
    cases h
    rfl
  | ok rules =>
    rw [hread] at h
    cases h

/-- The tokens of a text have spans in it that are not empty, one behind the other. They cover all
characters, line ends too, but for comments and those blanks that no token takes. Syntax errors
have such spans as well, and an empty one only at the end of a text that breaks off behind a head.
-/
theorem Token.ofText_covers (text : String) :
    (∀ t ∈ ofText text, t.start < t.stop ∧ t.stop ≤ text.length) ∧
      (ofText text).length ≤ text.length ∧
      (ofText text).Pairwise (fun t u => t.stop ≤ u.start) ∧
      (∀ i c, text.toList[i]? = some c → (Uncovered (ofText text) i ↔
        InComment (ofText text) text.toList i ∨
          isBlank c ∧ ¬ Enclosed (ofText text) text.toList i)) ∧
      (∀ i, text.toList[i]? = some '\n' → ∃ t ∈ ofText text, t.start ≤ i ∧ i < t.stop) ∧
      ∀ e, Grammar.ofText text = .error e →
        e.start ≤ e.stop ∧ e.stop ≤ text.length ∧
          (e.start = e.stop → ∃ front head v, ofText text = front ++ [head] ∧
            head.lexeme = .nonterminal v ∧ e = ⟨.arrow, head.stop, head.stop⟩) := by
  have hspans : ∀ t ∈ ofText text, t.start < t.stop ∧ t.stop ≤ text.length := by
    intro t ht
    have hstop := stop_le_of_mem_scan ht
    rw [Nat.zero_add, String.length_toList] at hstop
    exact ⟨start_lt_stop_of_mem_scan ht, hstop⟩
  have hlength := length_scan_le 0 text.toList
  rw [String.length_toList] at hlength
  refine ⟨hspans, hlength, pairwise_scan 0 text.toList, fun i c hc => uncovered_iff hc,
    fun i hline => exists_covering_lineEnd hline, fun e he => ?_⟩
  rcases (offence_of_ofText he).span with ⟨t, ht, hstart, hstop⟩ | ⟨front, head, v, hts, hhead, rfl⟩
  · obtain ⟨hlt, hle⟩ := hspans t ht
    rw [hstart, hstop]
    exact ⟨Nat.le_of_lt hlt, hle, fun heq => absurd heq (Nat.ne_of_lt hlt)⟩
  · have hmem : head ∈ ofText text := by simp [hts]
    exact ⟨Nat.le_refl _, (hspans head hmem).2, fun _ => ⟨front, head, v, hts, hhead, rfl⟩⟩

-- Blanks in brackets and behind a line feed belong to tokens; a comment and the blank before it
-- do not.
example : Token.ofText "<a b>\n  c #d" =
    [⟨.nonterminal "a b", 0, 5⟩, ⟨.lineEnd, 5, 8⟩, ⟨.terminal 'c', 8, 9⟩] := by
  cbv

end ContextFree
