import ContextFree.Grammar.Defect
import ContextFree.Machine.Input
import ContextFree.Machine.Sink

namespace ContextFree

inductive Mode where
  /-- To make the next choice. -/
  | querying
  /-- To undo the latest choice. -/
  | backtracking
  /-- To stop, as the input has been accepted. -/
  | accepting
  deriving DecidableEq, Repr

def Mode.text : Mode → String
  | querying => "q"
  | backtracking => "b"
  | accepting => "t"

/-- A configuration of an automaton whose choices are recorded as points of type `P`. -/
structure Configuration (P V T : Type) where
  mode : Mode
  /-- The position of the next input symbol, counted from 1. -/
  cursor : Nat
  /-- The choices made, the latest first. -/
  history : List P
  /-- The symbols at hand, the one to be worked on first. -/
  symbols : List (Symbol V T)
  deriving DecidableEq, Repr

/-- What an automaton does in a configuration. -/
inductive Move (P V T : Type) where
  | accept (derivation : List Nat)
  | reject
  | enter (c : Configuration P V T)
  /-- It looks at the terminal at the cursor, or at the end of the input, and then enters another
  configuration. -/
  | look (next : Option T → Configuration P V T)

/-- A backtracking automaton, with the form in which its configurations are shown. -/
structure Machine (P V T : Type) where
  initial : Configuration P V T
  move : Configuration P V T → Move P V T
  line : Configuration P V T → String

inductive ParseError (V T : Type) where
  | badInput (fault : InputFault V T)
  | badGrammar (defect : Defect V)
  | noDerivation
  | traceRefused
  deriving DecidableEq, Repr

def ParseError.message {V T : Type} [Name V] [Name T] : ParseError V T → String
  | badInput f => f.message
  | badGrammar d => "invalid grammar: " ++ d.message
  | noDerivation => "no derivation of the input exists"
  | traceRefused => "failed to write the trace"

structure RunState (P V T : Type) where
  configuration : Configuration P V T
  reader : Reader V T
  sink : Sink

inductive Run (P V T : Type) where
  | running (s : RunState P V T)
  | halted (outcome : Except (ParseError V T) (List Nat)) (reader : Reader V T) (sink : Sink)

namespace Machine

variable {P V T : Type}

/-- Enters a configuration, which is written to the sink at once; a sink that refuses it ends the
run. -/
def enter (m : Machine P V T) (c : Configuration P V T) (reader : Reader V T) (sink : Sink) :
    Run P V T :=
  match sink.write m.line c with
  | none => .halted (.error .traceRefused) reader sink
  | some sink => .running ⟨c, reader, sink⟩

def start (m : Machine P V T) (sink : Sink) : Run P V T :=
  m.enter m.initial .start sink

/-- Makes one move. The input is read only by a look, and a fault in it ends the run. -/
def advance (m : Machine P V T) (input : Input V T) : Run P V T → Run P V T
  | .halted outcome reader sink => .halted outcome reader sink
  | .running ⟨c, reader, sink⟩ =>
    match m.move c with
    | .accept derivation => .halted (.ok derivation) reader sink
    | .reject => .halted (.error .noDerivation) reader sink
    | .enter c' => m.enter c' reader sink
    | .look next =>
      let reader := reader.readTo input c.cursor
      match reader.status with
      | .failed fault => .halted (.error (.badInput fault)) reader sink
      | _ => m.enter (next (reader.seen c.cursor)) reader sink

def run (m : Machine P V T) (input : Input V T) : Nat → Run P V T → Run P V T
  | 0, r => r
  | n + 1, r => run m input n (m.advance input r)

theorem run_halted (m : Machine P V T) (input : Input V T) (n : Nat)
    (outcome : Except (ParseError V T) (List Nat)) (reader : Reader V T) (sink : Sink) :
    m.run input n (.halted outcome reader sink) = .halted outcome reader sink := by
  induction n with
  | zero => rfl
  | succ n ih => simpa [run, advance] using ih

/-- A run can be made in parts. -/
theorem run_add (m : Machine P V T) (input : Input V T) (n k : Nat) (r : Run P V T) :
    m.run input (n + k) r = m.run input k (m.run input n r) := by
  induction n generalizing r with
  | zero => simp [run]
  | succ n ih => rw [Nat.succ_add, run, ih, run]

end Machine

end ContextFree
