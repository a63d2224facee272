import ContextFree.Proofs.Text.Boundary
import Mathlib.Logic.Relation

namespace ContextFree

/-- An insertion into a text that is a matter of layout. -/
inductive Insertion : String → String → Prop
  | blanks (front back blanks : String) (hblanks : ∀ c ∈ blanks.toList, isBlank c)
      (houtside : ∀ t ∈ Token.ofText (front ++ back),
        front.length ≤ t.start ∨ t.stop ≤ front.length) :
      Insertion (front ++ back) (front ++ blanks ++ back)
  | comment (front back text : String) (hcomment : '\n' ∉ text.toList)
      (hend : back = "" ∨ ∃ t ∈ Token.ofText (front ++ back),
        t.lexeme = .lineEnd ∧ t.start = front.length) :
      Insertion (front ++ back) (front ++ ("#" ++ text) ++ back)
  | lineEnds (front back ends : String) (hends : ∀ c ∈ ends.toList, c = '\n')
      (hend : front = "" ∨ back = "" ∨ ∃ t ∈ Token.ofText (front ++ back),
        t.lexeme = .lineEnd ∧ (t.start = front.length ∨ t.stop = front.length)) :
      Insertion (front ++ back) (front ++ ends ++ back)

def withReturns (text : List Char) : List Char :=
  text.flatMap fun c => if c = '\n' then ['\r', '\n'] else [c]

/-- Puts a carriage return in front of each line feed. -/
def crlf (text : String) : String :=
  .ofList (withReturns text.toList)

variable {front back back' ends : List Char} {rules : List (Rule String Char)} {place : Place}

section Boundary

/-- What stands behind a boundary can be replaced by what spells the same, both on its own and
behind a hash. -/
theorem Boundary.replace (h : Boundary front back)
    (hhead : back'.head? = some '>' → back.head? = some '>')
    (hback : ∀ place : Place, place.spelled? (lexemes back') = place.spelled? (lexemes back))
    (hcomment : ∀ place : Place, place.spelled? (lexemes (back'.dropWhile (· ≠ '\n'))) =
      place.spelled? (lexemes (back.dropWhile (· ≠ '\n')))) (place : Place) :
    place.spelled? (lexemes (front ++ back')) = place.spelled? (lexemes (front ++ back)) := by
  cases h with
  | between ls h =>
    rw [h back' hhead, h back id]
    exact Place.spelled?_eq_of_suffix hback ls place
  | inComment ls h =>
    rw [h back' hhead, h back id]
    exact Place.spelled?_eq_of_suffix hcomment ls place

theorem Boundary.insert_blanks (h : Boundary front back) {blanks : List Char}
    (hblanks : ∀ c ∈ blanks, isBlank c) (place : Place) :
    place.spelled? (lexemes (front ++ (blanks ++ back))) =
      place.spelled? (lexemes (front ++ back)) := by
  have hskip : (blanks ++ back).dropWhile (· ≠ '\n') = back.dropWhile (· ≠ '\n') := by
    apply List.dropWhile_append_of_pos
    rintro c hc
    refine decide_eq_true ?_
    rintro rfl
    cases hblanks _ hc
  refine h.replace ?_ (fun place => congrArg place.spelled? (lexemes_blanks hblanks back))
    (fun place => by rw [hskip]) place
  intro hhead
  cases blanks with
  | nil => exact hhead
  | cons c blanks =>
    obtain rfl := Option.some.inj hhead
    cases hblanks _ List.mem_cons_self

/-- Where a line ends, and at the end of a text, a comment can be inserted. -/
theorem Boundary.insert_comment (h : Boundary front back) {text : List Char}
    (htext : '\n' ∉ text) (hend : back.dropWhile (· ≠ '\n') = back) (place : Place) :
    place.spelled? (lexemes (front ++ ('#' :: (text ++ back)))) =
      place.spelled? (lexemes (front ++ back)) := by
  have hskip : ('#' :: (text ++ back)).dropWhile (· ≠ '\n') = back.dropWhile (· ≠ '\n') := by
    rw [List.dropWhile_cons_of_pos (by decide)]
    exact List.dropWhile_append_of_pos fun c hc => decide_eq_true (ne_of_mem_of_not_mem hc htext)
  refine h.replace (fun hhead => absurd hhead (by simp)) (fun place => ?_)
    (fun place => by rw [hskip]) place
  rw [lexemes_comment htext, hend]

/-- A line end can be followed by more white space, line ends or not. -/
theorem Boundary.insert_white {white white' rest : List Char}
    (h : Boundary front ('\n' :: (white ++ rest))) (hwhite : ∀ c ∈ white, isWhiteSpace c)
    (hwhite' : ∀ c ∈ white', isWhiteSpace c) (place : Place) :
    place.spelled? (lexemes (front ++ '\n' :: (white' ++ rest))) =
      place.spelled? (lexemes (front ++ '\n' :: (white ++ rest))) := by
  have hspelled : ∀ place : Place, place.spelled? (lexemes ('\n' :: (white' ++ rest))) =
      place.spelled? (lexemes ('\n' :: (white ++ rest))) := by
    intro place
    rw [place.spelled?_lexemes_lineEnd hwhite', place.spelled?_lexemes_lineEnd hwhite]
  exact h.replace (fun hhead => absurd hhead (by simp)) hspelled hspelled place

/-- At the end of a text, line ends can be added. -/
theorem Boundary.append_lineEnds (h : Boundary front []) (hends : ∀ c ∈ ends, c = '\n')
    (hrules : place.spelled? (lexemes front) = some rules) :
    place.spelled? (lexemes (front ++ ends)) = some rules := by
  have hhead : ends.head? ≠ some '>' := by
    intro hhead
    exact absurd (hends _ (List.mem_of_head? hhead)) (by decide)
  have hskip : ends.dropWhile (· ≠ '\n') = ends := by
    cases ends with
    | nil => rfl
    | cons c ends =>
      obtain rfl := hends c List.mem_cons_self
      rfl
  have hwhite : ends.dropWhile isWhiteSpace = [] := by
    rw [List.dropWhile_eq_nil_iff]
    intro c hc
    rw [hends c hc]
    rfl
  obtain ⟨ls', hls', hlexemes⟩ := Place.exists_lexemes_dropWhile ends
  rw [hwhite, lexemes_nil, List.append_nil] at hlexemes
  rw [← List.append_nil front] at hrules
  cases h with
  | between ls h =>
    rw [h [] id, lexemes_nil, List.append_nil] at hrules
    rw [h ends fun hangle => absurd hangle hhead, hlexemes]
    exact Place.spelled?_append_lineEnds hls' hrules
  | inComment ls h =>
    rw [h [] id, List.dropWhile_nil, lexemes_nil, List.append_nil] at hrules
    rw [h ends fun hangle => absurd hangle hhead, hskip, hlexemes]
    exact Place.spelled?_append_lineEnds hls' hrules

end Boundary

section Insertion

variable {t : Token}

/-- In a text that spells rules, where no token is there is a boundary. -/
theorem boundary_of_spelled? (hrules : place.spelled? (lexemes (front ++ back)) = some rules)
    (houtside : ∀ t ∈ Token.scan 0 (front ++ back),
      front.length ≤ t.start ∨ t.stop ≤ front.length) : Boundary front back := by
  have hvalid := Place.valid_of_spelled? hrules
  refine Token.boundary_of_scan 0 front back
    (fun t ht => hvalid _ (List.mem_map.mpr ⟨t, ht, rfl⟩)) fun t ht => ?_
  rw [Nat.zero_add]
  exact houtside t ht

theorem boundary_start (hrules : place.spelled? (lexemes (front ++ back)) = some rules)
    (ht : t ∈ Token.scan 0 (front ++ back)) (hstart : t.start = front.length) :
    Boundary front back := by
  refine boundary_of_spelled? hrules fun u hu => ?_
  rw [← hstart]
  exact Token.not_inside_of_mem_scan ht hu

theorem boundary_end (hrules : place.spelled? (lexemes front) = some rules) :
    Boundary front [] := by
  rw [← List.append_nil front] at hrules
  refine boundary_of_spelled? hrules fun u hu => .inr ?_
  rw [List.append_nil] at hu
  simpa using Token.stop_le_of_mem_scan hu

theorem spelled?_insert_comment {text : List Char}
    (hrules : place.spelled? (lexemes (front ++ back)) = some rules) (htext : '\n' ∉ text)
    (hend : back = [] ∨ ∃ t ∈ Token.scan 0 (front ++ back),
      t.lexeme = .lineEnd ∧ t.start = front.length) :
    place.spelled? (lexemes (front ++ '#' :: (text ++ back))) = some rules := by
  rw [← hrules]
  rcases hend with rfl | ⟨t, ht, hline, hstart⟩
  · rw [List.append_nil] at hrules
    exact (boundary_end hrules).insert_comment htext rfl place
  · obtain ⟨front', white, rest, htext', _, hstart', _⟩ :=
      Token.exists_of_lineEnd_mem_scan ht hline
    rw [hstart, Nat.zero_add] at hstart'
    obtain ⟨rfl, rfl⟩ := List.append_inj htext' hstart'
    exact (boundary_start hrules ht hstart).insert_comment htext rfl place

theorem spelled?_insert_lineEnds
    (hrules : Place.before.spelled? (lexemes (front ++ back)) = some rules)
    (hends : ∀ c ∈ ends, c = '\n')
    (hend : front = [] ∨ back = [] ∨ ∃ t ∈ Token.scan 0 (front ++ back),
      t.lexeme = .lineEnd ∧ (t.start = front.length ∨ t.stop = front.length)) :
    Place.before.spelled? (lexemes (front ++ (ends ++ back))) = some rules := by
  have hwhite : ∀ c ∈ ends, isWhiteSpace c := by
    intro c hc
    rw [hends c hc]
    rfl
  rcases hend with rfl | rfl | ⟨t, ht, hline, hplace⟩
  · cases ends with
    | nil => exact hrules
    | cons c ends =>
      obtain rfl := hends c List.mem_cons_self
      obtain ⟨_, hmore⟩ := List.forall_mem_cons.mp hwhite
      rw [List.nil_append, List.cons_append, Place.spelled?_lexemes_lineEnd _ hmore]
      have hend : ∀ l ∈ [Lexeme.lineEnd], l = .lineEnd := by simp
      exact (Place.spelled?_lineEnds hend _).trans hrules
  · rw [List.append_nil] at hrules ⊢
    exact (boundary_end hrules).append_lineEnds hends hrules
  · obtain ⟨front', white, rest, htext, hwhite', hstart', hstop'⟩ :=
      Token.exists_of_lineEnd_mem_scan ht hline
    rw [Nat.zero_add] at hstart'
    rw [htext] at hrules ht
    have hboundary := boundary_start hrules ht hstart'
    rcases hplace with hstart | hstop
    · obtain ⟨rfl, rfl⟩ := List.append_inj htext (hstart.symm.trans hstart')
      cases ends with
      | nil => exact hrules
      | cons c ends =>
        obtain rfl := hends c List.mem_cons_self
        obtain ⟨_, hmore⟩ := List.forall_mem_cons.mp hwhite
        have hadded : ∀ c ∈ ends ++ '\n' :: white, isWhiteSpace c :=
          List.forall_mem_append.mpr ⟨hmore, List.forall_mem_cons.mpr ⟨rfl, hwhite'⟩⟩
        rw [← hrules, ← hboundary.insert_white hwhite' hadded]
        simp
    · have hsplit : front ++ back = (front' ++ '\n' :: white) ++ rest := by
        rw [htext]
        simp
      have hlength : front.length = (front' ++ '\n' :: white).length := by
        rw [← hstop, hstop', hstart', List.length_append, List.length_cons]
        omega
      obtain ⟨rfl, rfl⟩ := List.append_inj hsplit hlength
      have hadded : ∀ c ∈ white ++ ends, isWhiteSpace c :=
        List.forall_mem_append.mpr ⟨hwhite', hwhite⟩
      rw [← hrules, ← hboundary.insert_white hwhite' hadded]
      simp

theorem Insertion.spelled? {text text' : String} (h : Insertion text text')
    (hrules : Place.before.spelled? (lexemes text.toList) = some rules) :
    Place.before.spelled? (lexemes text'.toList) = some rules := by
  cases h with
  | blanks front back blanks hblanks houtside =>
    rw [String.toList_append] at hrules
    simp only [Token.ofText, String.toList_append, ← String.length_toList] at houtside
    rw [String.toList_append, String.toList_append, List.append_assoc,
      (boundary_of_spelled? hrules houtside).insert_blanks hblanks, hrules]
  | comment front back text hcomment hend =>
    rw [String.toList_append] at hrules
    simp only [Token.ofText, String.toList_append, ← String.length_toList,
      ← String.toList_eq_nil_iff] at hend
    simpa using spelled?_insert_comment hrules hcomment hend
  | lineEnds front back ends hends hend =>
    rw [String.toList_append] at hrules
    simp only [Token.ofText, String.toList_append, ← String.length_toList,
      ← String.toList_eq_nil_iff] at hend
    simpa using spelled?_insert_lineEnds hrules hends hend

end Insertion

section Returns

theorem withReturns_cons {c : Char} (h : c ≠ '\n') (text : List Char) :
    withReturns (c :: text) = c :: withReturns text := by
  rw [withReturns, List.flatMap_cons, if_neg h]
  rfl

theorem withReturns_append (front back : List Char) :
    withReturns (front ++ back) = withReturns front ++ withReturns back :=
  List.flatMap_append

theorem withReturns_eq_self (h : '\n' ∉ front) : withReturns front = front := by
  induction front with
  | nil => rfl
  | cons c front ih =>
    obtain ⟨hline, hfront⟩ := not_or.mp (mt List.mem_cons.mpr h)
    rw [withReturns_cons (Ne.symm hline), ih hfront]

theorem head?_withReturns (h : back.head? ≠ some '>') :
    (withReturns back).head? ≠ some '>' := by
  cases back with
  | nil => exact h
  | cons c back =>
    by_cases hline : c = '\n'
    · simp [withReturns, hline]
    · rw [withReturns_cons hline]
      exact h

theorem isWhiteSpace_withReturns (h : ∀ c ∈ front, isWhiteSpace c) :
    ∀ c ∈ withReturns front, isWhiteSpace c := by
  intro c hc
  obtain ⟨d, hd, hc⟩ := List.mem_flatMap.mp hc
  split at hc
  · rcases List.mem_cons.mp hc with rfl | hc
    · rfl
    · rw [List.mem_singleton.mp hc]
      rfl
  · rw [List.mem_singleton.mp hc]
    exact h d hd

/-- Carriage returns in front of line feeds do not change the rules. -/
theorem spelled?_withReturns (pos : Nat) (text : List Char)
    (hvalid : ∀ t ∈ Token.scan pos text, t.lexeme ≠ .invalid) (place : Place) :
    place.spelled? (lexemes (withReturns text)) = place.spelled? (lexemes text) := by
  -- The carriage return in front of a line feed is skipped, alone or at the end of a comment.
  have hreturn : ∀ text, lexemes (withReturns ('\n' :: text)) =
      lexemes ('\n' :: withReturns text) := fun text => lexemes_blank rfl _
  fun_induction Token.scan pos text generalizing place with
  | case1 pos => rfl
  | case2 pos c rest hblank ih =>
    have hline : c ≠ '\n' := by
      rintro rfl
      cases hblank
    rw [withReturns_cons hline, lexemes_blank hblank, lexemes_blank hblank, ih hvalid]
  | case3 pos rest comment hblank ih =>
    by_cases hline : '\n' ∈ rest
    · obtain ⟨skipped, behind, rfl, hskipped⟩ := List.eq_append_cons_of_mem hline
      have hbehind : (skipped ++ '\n' :: behind).drop comment.length = '\n' :: behind := by
        have hstop : ∀ c ∈ skipped, decide (c ≠ '\n') = true := fun c hc =>
          decide_eq_true (ne_of_mem_of_not_mem hc hskipped)
        subst comment
        rw [List.takeWhile_append_of_pos hstop]
        simp
      rw [hbehind] at ih hvalid
      rw [withReturns_cons (by decide), withReturns_append, withReturns_eq_self hskipped,
        lexemes_comment hskipped, lexemes_comment hskipped]
      refine Eq.trans ?_ (ih hvalid place)
      rw [hreturn]
      rfl
    · rw [withReturns_cons (by decide), withReturns_eq_self hline]
  | case4 pos c rest hblank hcomment lexeme width hread stop ih =>
    obtain ⟨hlexeme, hbehind⟩ := List.forall_mem_cons.mp hvalid
    by_cases hline : c = '\n'
    · subst hline
      cases hread
      rw [drop_length_takeWhile] at ih hbehind
      have hwhite : ∀ c ∈ rest.takeWhile isWhiteSpace, isWhiteSpace c := fun c hc =>
        List.mem_takeWhile_imp hc
      rw [hreturn, ← List.takeWhile_append_dropWhile (p := isWhiteSpace) (l := rest),
        withReturns_append, place.spelled?_lexemes_lineEnd hwhite,
        place.spelled?_lexemes_lineEnd (isWhiteSpace_withReturns hwhite)]
      exact Place.spelled?_eq_of_suffix (ih hbehind) [.lineEnd] place
    · have hblank : isBlank c = false := eq_false_of_ne_true hblank
      obtain ⟨taken, behind, rfl, rfl, hwritten, hdash⟩ :=
        Lexeme.exists_written hread hline hlexeme
      rw [List.drop_left] at ih hbehind
      have hdash' : c :: taken = ['-'] → (withReturns behind).head? ≠ some '>' := fun htaken =>
        head?_withReturns (hdash htaken)
      rw [withReturns_cons hline, withReturns_append, withReturns_eq_self hwritten.not_mem,
        lexemes_written hblank hcomment hwritten hdash,
        lexemes_written hblank hcomment hwritten hdash']
      exact Place.spelled?_eq_of_suffix (ih hbehind) [lexeme] place

end Returns

namespace Grammar

variable {text : String} {g : Grammar String Char}

theorem ofText_eq_ok_iff_spelled? : ofText text = .ok g ↔
    ∃ rules, Place.before.spelled? (lexemes text.toList) = some rules ∧ g = ofRules none rules := by
  rw [lexemes, ← Token.ofText, ← Place.toOption_readRules, ofText]
  cases readRules .before (Token.ofText text) with
  | error e => simp [Except.map, Except.toOption]
  | ok rules => simp [Except.map, Except.toOption, eq_comm]

/-- Layout does not matter to the grammar of a text. -/
theorem ofText_layout (h : ofText text = .ok g) :
    (∀ text', Relation.ReflTransGen Insertion text text' → ofText text' = .ok g) ∧
      ofText (crlf text) = .ok g := by
  constructor
  · intro text' hinsertions
    induction hinsertions with
    | refl => exact h
    | tail _ hinsertion ih =>
      obtain ⟨rules, hrules, rfl⟩ := ofText_eq_ok_iff_spelled?.mp ih
      exact ofText_eq_ok_iff_spelled?.mpr ⟨rules, hinsertion.spelled? hrules, rfl⟩
  · obtain ⟨rules, hrules, rfl⟩ := ofText_eq_ok_iff_spelled?.mp h
    have hvalid := Place.valid_of_spelled? hrules
    refine ofText_eq_ok_iff_spelled?.mpr ⟨rules, ?_, rfl⟩
    rw [crlf, String.toList_ofList, spelled?_withReturns 0, hrules]
    exact fun t ht => hvalid _ (List.mem_map.mpr ⟨t, ht, rfl⟩)

/-- A tab behind a lone dash, and a comment at the end of the first line. -/
theorem ofText_layout_dash :
    ofText "A ->-B\nB ->" =
        .ok (.ofRules none [⟨"A", [.terminal '-', .nonterminal "B"]⟩, ⟨"B", []⟩]) ∧
      ofText "A ->-\tB#>\nB ->" = ofText "A ->-B\nB ->" ∧
      ofText "A ->-B\r\nB ->" = ofText "A ->-B\nB ->" := by
  have htokens : Token.ofText ("A ->-" ++ "B\nB ->") = [⟨.nonterminal "A", 0, 1⟩, ⟨.arrow, 2, 4⟩,
      ⟨.terminal '-', 4, 5⟩, ⟨.nonterminal "B", 5, 6⟩, ⟨.lineEnd, 6, 7⟩, ⟨.nonterminal "B", 7, 8⟩,
      ⟨.arrow, 9, 11⟩] := by
    simp +decide [Token.ofText, Token.scan, Lexeme.read]
  have htext : ofText "A ->-B\nB ->" =
      .ok (.ofRules none [⟨"A", [.terminal '-', .nonterminal "B"]⟩, ⟨"B", []⟩]) :=
    congrArg (fun ts => (readRules .before ts).map (ofRules none)) htokens
  have htab : Insertion "A ->-B\nB ->" "A ->-\tB\nB ->" := by
    have hblank : ∀ c ∈ ['\t'], isBlank c := List.all_eq_true.mp (by rfl)
    refine .blanks "A ->-" "B\nB ->" "\t" hblank ?_
    rw [htokens]
    decide
  have hcomment : Insertion "A ->-\tB\nB ->" "A ->-\tB#>\nB ->" := by
    have htokens : Token.ofText ("A ->-\tB" ++ "\nB ->") = [⟨.nonterminal "A", 0, 1⟩,
        ⟨.arrow, 2, 4⟩, ⟨.terminal '-', 4, 5⟩, ⟨.nonterminal "B", 6, 7⟩, ⟨.lineEnd, 7, 8⟩,
        ⟨.nonterminal "B", 8, 9⟩, ⟨.arrow, 10, 12⟩] := by
      simp +decide [Token.ofText, Token.scan, Lexeme.read]
    refine .comment "A ->-\tB" "\nB ->" ">" (by decide) (.inr ?_)
    rw [htokens]
    decide
  obtain ⟨hlayout, hreturn⟩ := ofText_layout htext
  refine ⟨htext, ?_, ?_⟩
  · rw [htext, hlayout _ (.tail (.single htab) hcomment)]
  · rw [htext]
    exact hreturn

end Grammar

end ContextFree
