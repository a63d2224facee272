import ContextFree.Command.Response

namespace ContextFree.Command

def readFile (path : String) : IO (Except String String) := do
  try
    return .ok (← IO.FS.readFile path)
  catch e =>
    match e with
    | .noFileOrDirectory .. => return .error missingFile
    | e => return .error (toString e)

/-- Allows ever more moves until the response is complete. -/
partial def await (response : Nat → Option Response) (moves : Nat) : IO Response :=
  match response moves with
  | some r => return r
  | none => await response (2 * moves)

/-- Prints a response: its output, and its errors with each cause on a line of its own. -/
def print (r : Response) : IO UInt32 := do
  IO.print r.output
  match r.errors with
  | [] => pure ()
  | message :: causes =>
    IO.eprintln ("Error: " ++ message)
    for cause in causes do
      IO.eprintln ("  caused by: " ++ cause)
  return r.code.toUInt32

end ContextFree.Command

open ContextFree.Command in
def main (args : List String) : IO UInt32 := do
  match Request.ofArguments args with
  | none =>
    IO.eprint usageText
    print .misuse
  | some .version => print (.success versionText)
  | some .help => print (.success helpText)
  | some (.parse a) =>
    let file ← readFile a.grammar
    print (← await (fun moves => respond (fun _ => file) moves a) 1024)
