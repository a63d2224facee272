namespace ContextFree

inductive Sink where
  | silent
  /-- Lines are kept, the latest first, while there is room; without a limit there always is. -/
  | page (room : Option Nat) (written : List String)
  deriving DecidableEq, Repr

namespace Sink

/-- An empty page, with room for a number of lines or without a limit. -/
def new (room : Option Nat) : Sink :=
  page room []

/-- Writes a configuration in the form given by `line`; none if there is no room. Every line but the
first follows a turnstile. -/
def write {C : Type} (line : C → String) (c : C) : Sink → Option Sink
  | silent => some silent
  | page (some 0) _ => none
  | page room written =>
    let lead := if written.isEmpty then "" else "|- "
    some (page (room.map (· - 1)) ((lead ++ line c ++ "\n") :: written))

def lines : Sink → List String
  | silent => []
  | page _ written => written.reverse

end Sink

end ContextFree
