import ContextFree.Grammar.Basic
import ContextFree.Text.Token

namespace ContextFree

inductive SyntaxFault where
  /-- A rule begins with something else than a nonterminal. -/
  | head
  /-- The head of a rule is not followed by an arrow. -/
  | arrow
  /-- A body holds an arrow. -/
  | symbol
  /-- A body holds an invalid token. -/
  | token
  deriving DecidableEq, Repr

def SyntaxFault.text : SyntaxFault → String
  | head => "expected NONTERMINAL at the start of a rule"
  | arrow => "expected ARROW after the rule head"
  | symbol => "expected NONTERMINAL, TERMINAL, VERTICAL or NEWLINE"
  | token => "invalid token"

/-- A fault with the span of the text that shows it. -/
structure SyntaxError where
  fault : SyntaxFault
  start : Nat
  stop : Nat
  deriving DecidableEq, Repr

def SyntaxError.message (e : SyntaxError) : String :=
  s!"[ERROR] ({e.start}, {e.stop}): " ++ e.fault.text

def SyntaxFault.at (fault : SyntaxFault) (t : Token) : SyntaxError :=
  ⟨fault, t.start, t.stop⟩

/-- A place in a grammar text, with what has been read of the current rule. -/
inductive Place where
  | before
  /-- Behind the head of a rule, which ends at a position. -/
  | behindHead (head : String) (stop : Nat)
  /-- In a body, of which some symbols have been read, the last one first. -/
  | inBody (head : String) (symbols : List (Symbol String Char))
  deriving DecidableEq, Repr

/-- The rules of the tokens behind a place. -/
def readRules : Place → List Token → Except SyntaxError (List (Rule String Char))
  | .before, [] => .ok []
  | .behindHead _ stop, [] => .error ⟨.arrow, stop, stop⟩
  | .inBody v body, [] => .ok [⟨v, body.reverse⟩]
  | .before, t :: ts =>
    match t.lexeme with
    | .lineEnd => readRules .before ts
    | .nonterminal v => readRules (.behindHead v t.stop) ts
    | _ => .error (SyntaxFault.head.at t)
  | .behindHead v _, t :: ts =>
    match t.lexeme with
    | .arrow => readRules (.inBody v []) ts
    | _ => .error (SyntaxFault.arrow.at t)
  | .inBody v body, t :: ts =>
    match t.lexeme with
    | .nonterminal w => readRules (.inBody v (.nonterminal w :: body)) ts
    | .terminal c => readRules (.inBody v (.terminal c :: body)) ts
    | .bar => (readRules (.inBody v []) ts).map (⟨v, body.reverse⟩ :: ·)
    | .lineEnd => (readRules .before ts).map (⟨v, body.reverse⟩ :: ·)
    | .arrow => .error (SyntaxFault.symbol.at t)
    | .invalid => .error (SyntaxFault.token.at t)

/-- The grammar of a text, in which every line is empty or a head with an arrow and bodies separated
by bars. Its start is the first head. -/
def Grammar.ofText (text : String) : Except SyntaxError (Grammar String Char) :=
  (readRules .before (Token.ofText text)).map (.ofRules none)

end ContextFree
