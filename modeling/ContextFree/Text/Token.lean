import ContextFree.Text.WhiteSpace

namespace ContextFree

/-- What a token stands for. -/
inductive Lexeme where
  | nonterminal (name : String)
  | terminal (c : Char)
  | arrow
  | bar
  | lineEnd
  | invalid
  deriving DecidableEq, Repr

namespace Lexeme

/-- Reads a name in angle brackets behind the opening bracket: the lexeme and the number of
characters it takes. A name is not empty and holds neither brackets nor line ends; a character that
breaks this belongs to the invalid lexeme. -/
def bracketed (rest : List Char) : Lexeme × Nat :=
  let name := rest.takeWhile fun c => c ≠ '<' ∧ c ≠ '>' ∧ c ≠ '\n'
  match rest.drop name.length with
  | [] => (invalid, name.length)
  | c :: _ =>
    (if c = '>' ∧ name ≠ [] then nonterminal (String.ofList name) else invalid, name.length + 1)

/-- Reads an escaped terminal behind the backslash: the lexeme and the number of characters it
takes. -/
def escaped : List Char → Lexeme × Nat
  | [] => (invalid, 0)
  | '\n' :: _ => (invalid, 1)
  | 'n' :: _ => (terminal '\n', 1)
  | 't' :: _ => (terminal '\t', 1)
  | 's' :: _ => (terminal ' ', 1)
  | c :: _ => (terminal c, 1)

/-- The lexeme that begins with a character, and the number of further characters it takes. A line
end takes all white space behind it, and a capital letter is a nonterminal. -/
def read (c : Char) (rest : List Char) : Lexeme × Nat :=
  if c = '\n' then (lineEnd, (rest.takeWhile isWhiteSpace).length)
  else if c = '-' ∧ rest.head? = some '>' then (arrow, 1)
  else if c = '|' then (bar, 0)
  else if c = '<' then bracketed rest
  else if c = '\\' then escaped rest
  else if 'A' ≤ c ∧ c ≤ 'Z' then (nonterminal (String.singleton c), 0)
  else (terminal c, 0)

end Lexeme

/-- A lexeme with the positions of its first character and of the first one behind it, which count
characters. -/
structure Token where
  lexeme : Lexeme
  start : Nat
  stop : Nat
  deriving DecidableEq, Repr

namespace Token

/-- The tokens of a text that begins at a position. -/
def scan (pos : Nat) : List Char → List Token
  | [] => []
  | c :: rest =>
    if isBlank c then scan (pos + 1) rest
    else if c = '#' then
      let comment := rest.takeWhile (· ≠ '\n')
      scan (pos + 1 + comment.length) (rest.drop comment.length)
    else
      let (lexeme, width) := Lexeme.read c rest
      let stop := pos + 1 + width
      ⟨lexeme, pos, stop⟩ :: scan stop (rest.drop width)
  termination_by text => text.length
  decreasing_by
    all_goals simp only [List.length_cons, List.length_drop]
    all_goals omega

def ofText (text : String) : List Token :=
  scan 0 text.toList

end Token

end ContextFree
