import ContextFree.Command.Arguments

namespace ContextFree.Command

def Response.misuse : Response :=
  ⟨2, [], ""⟩

def versionText : String :=
  "backparse 0.1.0\n"

def usageText : String :=
  "Usage: backparse [OPTIONS] <GRAMMAR> <INPUT>\n"

def helpText : String :=
  String.join [
    "Top-down and bottom-up backtracking parsers for arbitrary context-free grammars\n\n",
    usageText,
    "\nArguments:\n",
    "  <GRAMMAR>  File containing the grammar\n",
    "  <INPUT>    Input to parse, one terminal per character\n",
    "\nOptions:\n",
    "  -a, --algorithm <ALGORITHM>  Parsing algorithm [default: top-down] ",
    "[possible values: top-down, bottom-up]\n",
    "  -t, --trace                  Print every configuration the parser passes through\n",
    "      --tree                   Print the parse tree\n",
    "  -h, --help                   Print help\n",
    "  -V, --version                Print version\n"]

def missingFile : String :=
  "No such file or directory (os error 2)"

/-- The response to a list of arguments, if it is complete within a number of moves. -/
def run (readFile : String → Except String String) (args : List String) (moves : Nat) :
    Option Response :=
  match Request.ofArguments args with
  | none => some .misuse
  | some .version => some (.success versionText)
  | some .help => some (.success helpText)
  | some (.parse a) => respond readFile moves a

end ContextFree.Command
