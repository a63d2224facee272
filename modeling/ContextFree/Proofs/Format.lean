import ContextFree.Command.Program
import ContextFree.Proofs.Outline

namespace ContextFree

namespace Format

/-- What is printed for a symbol, character by character. Like all formats here, it does not use the
functions that print. -/
def symbol : Symbol String Char → List Char
  | .terminal t => [t]
  | .nonterminal v => v.toList

def number (n : Nat) : List Char :=
  Nat.toDigits 10 n

def mode : Mode → Char
  | .querying => 'q'
  | .backtracking => 'b'
  | .accepting => 't'

/-- A configuration with its last two fields given: the fields stand in brackets, a comma and a
blank between two of them. -/
def fields {P : Type} (c : Configuration P String Char) (third fourth : List Char) : List Char :=
  ['('] ++ [',', ' '].intercalate [[mode c.mode], number c.cursor, third, fourth] ++ [')']

def topDownPoint : TopDown.Point String Char → List Char
  | .expand p rank => p.head.toList ++ number (rank + 1)
  | .matched t => [t]

/-- A blank stands between two points, of which the oldest comes first, and a dollar sign behind the
frontier. An `e` stands for no points, and for the frontier once the input has been accepted. -/
def topDown (c : TopDown.Config String Char) : List Char :=
  fields c
    (if c.history.isEmpty then ['e'] else [' '].intercalate (c.history.reverse.map topDownPoint))
    (if c.mode = .accepting then ['e'] else c.symbols.flatMap symbol ++ ['$'])

def bottomUpPoint : BottomUp.Point String Char → List Char
  | .shift => ['s']
  | .reduce p => number p.number

/-- The stack follows a dollar sign, its top at the end, and the points follow one another, the
latest first. An `e` stands for no points. -/
def bottomUp (c : BottomUp.Config String Char) : List Char :=
  fields c (['$'] ++ c.symbols.reverse.flatMap symbol)
    (if c.history.isEmpty then ['e'] else c.history.flatMap bottomUpPoint)

/-- A line for each configuration, the first bare and the others behind a turnstile. -/
def trace {C : Type} (form : C → List Char) : List C → List Char
  | [] => []
  | first :: cs => form first ++ ['\n'] ++ cs.flatMap fun c => ['|', '-', ' '] ++ form c ++ ['\n']

def derivation (numbers : List Nat) : List Char :=
  ['['] ++ [',', ' '].intercalate (numbers.map number) ++ [']', '\n']

mutual

/-- A line for each node in preorder, behind two blanks for each level above it. -/
def tree (depth : Nat) : Tree String Char → List Char
  | .node s ts => List.replicate (2 * depth) ' ' ++ symbol s ++ ['\n'] ++ forest (depth + 1) ts

def forest (depth : Nat) : List (Tree String Char) → List Char
  | [] => []
  | t :: ts => tree depth t ++ forest depth ts

end

theorem trace_concat {C : Type} (form : C → List Char) {cs : List C} (h : cs ≠ []) (c : C) :
    trace form (cs ++ [c]) = trace form cs ++ ['|', '-', ' '] ++ form c ++ ['\n'] := by
  cases cs with
  | nil => exact False.elim (h rfl)
  | cons first cs => simp [trace]

end Format

section Printing

open Format

theorem Symbol.toList_text (s : Symbol String Char) : s.text.toList = symbol s := by
  cases s with
  | terminal t => exact String.toList_singleton t
  | nonterminal v => rfl

theorem Symbol.toList_textAll (symbols : List (Symbol String Char)) :
    (textAll symbols).toList = symbols.flatMap symbol := by
  rw [textAll, String.toList_join, List.flatMap_map]
  simp only [toList_text]

theorem Mode.toList_text (m : Mode) : m.text.toList = [mode m] := by
  cases m <;> rfl

theorem TopDown.Point.toList_text (p : Point String Char) : p.text.toList = topDownPoint p := by
  cases p with
  | expand p rank =>
    rw [text, String.toList_append, Nat.toList_repr]
    rfl
  | matched t => exact String.toList_singleton t

theorem toList_fields {P : Type} (c : Configuration P String Char) (third fourth : String) :
    ("(" ++ ", ".intercalate [c.mode.text, c.cursor.repr, third, fourth] ++ ")").toList =
      fields c third.toList fourth.toList := by
  rw [String.toList_append, String.toList_append, String.toList_intercalate, fields]
  simp only [List.map_cons, List.map_nil, Mode.toList_text, Nat.toList_repr]
  rfl

theorem TopDown.toList_line (c : Config String Char) : (line c).toList = Format.topDown c := by
  have hpoints : (" ".intercalate (c.history.reverse.map Point.text)).toList =
      [' '].intercalate (c.history.reverse.map topDownPoint) := by
    rw [String.toList_intercalate, List.map_map]
    simp only [Function.comp_def, Point.toList_text]
    rfl
  rw [line, toList_fields, Format.topDown, apply_ite String.toList, apply_ite String.toList,
    hpoints, String.toList_append, Symbol.toList_textAll]
  rfl

theorem BottomUp.Point.toList_text (p : Point String Char) : p.text.toList = bottomUpPoint p := by
  cases p with
  | shift => rfl
  | reduce p => exact Nat.toList_repr

theorem BottomUp.toList_line (c : Config String Char) : (line c).toList = Format.bottomUp c := by
  have hpoints : (String.join (c.history.map Point.text)).toList =
      c.history.flatMap bottomUpPoint := by
    rw [String.toList_join, List.flatMap_map]
    simp only [Point.toList_text]
  rw [line, toList_fields, Format.bottomUp, apply_ite String.toList, hpoints, String.toList_append,
    Symbol.toList_textAll]
  rfl

theorem Command.derivationText_eq (numbers : List Nat) :
    derivationText numbers = String.ofList (Format.derivation numbers) := by
  rw [← String.toList_inj, String.toList_ofList, derivationText, String.toList_append,
    String.toList_append, String.toList_intercalate, List.map_map, Format.derivation]
  simp only [Function.comp_def, Nat.toList_repr]
  rfl

mutual

theorem Tree.flatMap_lineChars_outline (t : Tree String Char) (depth : Nat) :
    ((t.outline depth).map shown).flatMap lineChars = Format.tree depth t := by
  match t with
  | node s ts =>
    rw [outline, List.map_cons, List.flatMap_cons, flatMap_lineChars_outlineAll ts (depth + 1),
      Format.tree, ← Symbol.toList_text]
    simp only [lineChars, shown, List.append_assoc]

theorem Tree.flatMap_lineChars_outlineAll (ts : List (Tree String Char)) (depth : Nat) :
    ((outlineAll depth ts).map shown).flatMap lineChars = Format.forest depth ts := by
  match ts with
  | [] => rfl
  | t :: ts =>
    rw [outlineAll, List.map_append, List.flatMap_append, flatMap_lineChars_outline t depth,
      flatMap_lineChars_outlineAll ts depth, Format.forest]

end

theorem Tree.text_eq (t : Tree String Char) : t.text = String.ofList (Format.tree 0 t) := by
  rw [← String.toList_inj, String.toList_ofList, toList_text, flatMap_lineChars_outline]

end Printing

end ContextFree
