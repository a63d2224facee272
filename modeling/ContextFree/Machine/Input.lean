import ContextFree.Symbol

namespace ContextFree

variable {V T : Type}

/-- An input answers its requests, which are counted from 0, by a symbol or by an end. An end need
not be final: what later requests would bring is left open. -/
abbrev Source (V T : Type) := Nat → Option (Symbol V T)

namespace Source

/-- The source of a list of answers, which ends behind them for good. -/
def ofAnswers (answers : List (Option (Symbol V T))) : Source V T :=
  let table := answers.toArray
  fun n => table[n]?.join

def ofList (symbols : List (Symbol V T)) : Source V T :=
  ofAnswers (symbols.map some)

def ofText (text : String) : Source V Char :=
  ofList (text.toList.map .terminal)

/-- The source that repeats a list of symbols forever; no symbols are an end. -/
def cycle (symbols : List (Symbol V T)) : Source V T :=
  let table := symbols.toArray
  fun n => table[n % table.size]?

end Source

/-- A symbol that no parser accepts as input, with its position, counted from 1. -/
inductive InputFault (V T : Type) where
  | notATerminal (position : Nat) (v : V)
  | unknownTerminal (position : Nat) (t : T)
  deriving DecidableEq, Repr

def InputFault.message [Name V] [Name T] : InputFault V T → String
  | notATerminal n v => s!"[ERROR] ({n}): input symbol `" ++ Name.text v ++ "` is not a terminal"
  | unknownTerminal n t =>
    s!"[ERROR] ({n}): input symbol `" ++ Name.text t ++ "` is not in the terminal alphabet"

/-- A source with the alphabet that its terminals are checked against. -/
structure Input (V T : Type) where
  source : Source V T
  isTerminal : T → Bool

inductive ReaderStatus (V T : Type) where
  | ready
  | ended
  | failed (fault : InputFault V T)
  deriving DecidableEq, Repr

/-- What has been read of an input. Terminals are kept, so that a parser can return to them. -/
structure Reader (V T : Type) where
  buffer : Array T
  /-- The number of symbols taken from the source, counting one that is no terminal. -/
  taken : Nat
  status : ReaderStatus V T
  deriving DecidableEq, Repr

namespace Reader

def start : Reader V T :=
  ⟨#[], 0, .ready⟩

/-- Requests one more symbol, unless an earlier request brought an end or a fault. -/
def pull (input : Input V T) (r : Reader V T) : Reader V T :=
  match r.status with
  | .ready =>
    match input.source r.taken with
    | none => { r with status := .ended }
    | some (.nonterminal v) =>
      { r with taken := r.taken + 1, status := .failed (.notATerminal (r.buffer.size + 1) v) }
    | some (.terminal t) =>
      if input.isTerminal t then { r with buffer := r.buffer.push t, taken := r.taken + 1 }
      else
        { r with taken := r.taken + 1, status := .failed (.unknownTerminal (r.buffer.size + 1) t) }
  | _ => r

def pulls (input : Input V T) : Nat → Reader V T → Reader V T
  | 0, r => r
  | n + 1, r => pulls input n (r.pull input)

/-- Makes the requests that are due before a cursor, counted from 1, can be looked at. -/
def readTo (input : Input V T) (cursor : Nat) (r : Reader V T) : Reader V T :=
  r.pulls input (cursor - r.buffer.size)

/-- The terminal at a cursor, or none if the input ends before it. -/
def seen (r : Reader V T) (cursor : Nat) : Option T :=
  r.buffer[cursor - 1]?

end Reader

end ContextFree
