import ContextFree.Command.Program

namespace ContextFree.Command

/-- What a list of arguments asks for. Reading the list is the outer layer of the program, in front of
its response to a request to parse. -/
inductive Request where
  | parse (arguments : Arguments)
  | version
  | help
  deriving DecidableEq, Repr

/-- The arguments read so far. -/
structure Draft where
  grammar : Option String
  input : Option String
  strategy : Option Strategy
  trace : Bool
  tree : Bool

namespace Draft

def empty : Draft :=
  ⟨none, none, none, false, false⟩

/-- Takes a positional argument: the path, which must not be empty, then the input. -/
def positional (d : Draft) (arg : String) : Option Draft :=
  match d.grammar, d.input with
  | none, _ => if arg = "" then none else some { d with grammar := some arg }
  | some _, none => some { d with input := some arg }
  | some _, some _ => none

/-- Asks for the trace, which may be done once. -/
def setTrace (d : Draft) : Option Draft :=
  if d.trace then none else some { d with trace := true }

def setTree (d : Draft) : Option Draft :=
  if d.tree then none else some { d with tree := true }

/-- Chooses a strategy by its name, which may be done once. -/
def setStrategy (d : Draft) (name : String) : Option Draft :=
  if d.strategy.isSome then none
  else if name = "top-down" then some { d with strategy := some .topDown }
  else if name = "bottom-up" then some { d with strategy := some .bottomUp }
  else none

/-- The request at the end of the arguments: both positional arguments must be there. -/
def finish (d : Draft) : Option Request :=
  match d.grammar, d.input with
  | some grammar, some input =>
    some (.parse ⟨grammar, input, d.strategy.getD .topDown, d.trace, d.tree⟩)
  | _, _ => none

end Draft

/-- What an option leaves to be done. -/
inductive AfterOption where
  | goOn (d : Draft)
  | needStrategy (d : Draft)
  | stop (request : Request)

/-- Reads a group of one-letter options. The rest of a group is the value of an option that takes
one; an equals sign before the value is skipped. -/
def readShort (d : Draft) : List Char → Option AfterOption
  | [] => some (.goOn d)
  | 't' :: rest => do readShort (← d.setTrace) rest
  | 'a' :: [] => some (.needStrategy d)
  | 'a' :: '=' :: value => (d.setStrategy (String.ofList value)).map .goOn
  | 'a' :: value => (d.setStrategy (String.ofList value)).map .goOn
  | 'V' :: _ => some (.stop .version)
  | 'h' :: _ => some (.stop .help)
  | _ => none

def readLong (d : Draft) (option : List Char) : Option AfterOption :=
  let name := String.ofList (option.takeWhile (· ≠ '='))
  match name, option.dropWhile (· ≠ '=') with
  | "trace", [] => d.setTrace.map .goOn
  | "tree", [] => d.setTree.map .goOn
  | "algorithm", [] => some (.needStrategy d)
  | "algorithm", _ :: value => (d.setStrategy (String.ofList value)).map .goOn
  | "version", [] => some (.stop .version)
  | "help", [] => some (.stop .help)
  | _, _ => none

/-- Whether an argument is written like an option. A lone dash is not. -/
def isOption (arg : String) : Bool :=
  match arg.toList with
  | '-' :: _ :: _ => true
  | _ => false

def readOption (d : Draft) (arg : String) : Option AfterOption :=
  match arg.toList with
  | '-' :: '-' :: option => readLong d option
  | _ :: option => readShort d option
  | [] => none

def readPositional (d : Draft) : List String → Option Draft
  | [] => some d
  | arg :: rest => do readPositional (← d.positional arg) rest

/-- Reads arguments from left to right; none if they are misused. The first mistake or request for
information decides, whatever stands to its right, and two dashes end the options. -/
def read (d : Draft) : List String → Option Request
  | [] => d.finish
  | arg :: rest =>
    if arg = "--" then do (← readPositional d rest).finish
    else if isOption arg then
      match readOption d arg with
      | none => none
      | some (.goOn d) => read d rest
      | some (.stop request) => some request
      | some (.needStrategy d) =>
        match rest with
        | [] => none
        | value :: rest =>
          if isOption value then none
          else
            match d.setStrategy value with
            | none => none
            | some d => read d rest
    else
      match d.positional arg with
      | none => none
      | some d => read d rest

def Request.ofArguments (args : List String) : Option Request :=
  read .empty args

end ContextFree.Command
