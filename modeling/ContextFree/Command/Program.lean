import ContextFree.Parse
import ContextFree.Text.Reading

namespace ContextFree.Command

/-- What to parse, and what to show besides the derivation. -/
structure Arguments where
  grammar : String
  input : String
  strategy : Strategy
  trace : Bool
  tree : Bool
  deriving DecidableEq, Repr

/-- An exit code, the standard output, and the messages of an error, each followed by its cause. -/
structure Response where
  code : Nat
  errors : List String
  output : String
  deriving DecidableEq, Repr

def Response.success (output : String) : Response :=
  ⟨0, [], output⟩

def Response.failure (errors : List String) (output : String) : Response :=
  ⟨1, errors, output⟩

def derivationText (derivation : List Nat) : String :=
  "[" ++ ", ".intercalate (derivation.map Nat.repr) ++ "]\n"

/-- The messages of a parse error: a defect of the grammar is the cause of the error it leads to. -/
def errorChain (e : ParseError String Char) : List String :=
  match e with
  | .badGrammar defect => [e.message, defect.message]
  | _ => [e.message]

/-- The response to a derivation, behind the lines of its trace. -/
def derived (a : Arguments) (g : Grammar String Char) (trace : String) (derivation : List Nat) :
    Response :=
  let output := trace ++ derivationText derivation
  if a.tree then
    match a.strategy.tree g derivation with
    | .ok tree => .success (output ++ tree.text)
    | .error e => .failure [e.message] output
  else .success output

/-- The response to a parse of the input with a grammar, if it ends within a number of moves. -/
def parseInput (a : Arguments) (g : Grammar String Char) (moves : Nat) : Option Response :=
  let sink := if a.trace then Sink.new none else .silent
  (a.strategy.parse g (.ofText a.input) sink moves).map fun report =>
    let trace := String.join report.trace
    match report.outcome with
    | .ok derivation => derived a g trace derivation
    | .error e => .failure (errorChain e) trace

/-- The response to the arguments, if it is complete within a number of moves. Reading a file gives
its content or the cause why there is none. -/
def respond (readFile : String → Except String String) (moves : Nat) (a : Arguments) :
    Option Response :=
  match readFile a.grammar with
  | .error cause => some (.failure ["failed to read grammar from " ++ a.grammar, cause] "")
  | .ok text =>
    match Grammar.ofText text with
    | .error e => some (.failure [e.message] "")
    | .ok g => parseInput a g moves

end ContextFree.Command
