namespace ContextFree

/-- Names that can be shown in messages, traces and trees. -/
class Name (α : Type) where
  text : α → String

instance : Name String := ⟨id⟩

instance : Name Char := ⟨String.singleton⟩

instance : Name Int where
  text
    | .ofNat n => n.repr
    | .negSucc n => "-" ++ (n + 1).repr

/-- A terminal of the alphabet `T` or a nonterminal of `V`; equal names of the two kinds differ. -/
inductive Symbol (V T : Type) where
  | terminal (t : T)
  | nonterminal (v : V)
  deriving DecidableEq, Repr

namespace Symbol

variable {V T : Type}

def terminal? : Symbol V T → Option T
  | terminal t => some t
  | nonterminal _ => none

def nonterminal? : Symbol V T → Option V
  | terminal _ => none
  | nonterminal v => some v

@[simp]
theorem terminal?_eq_some {s : Symbol V T} {t : T} : s.terminal? = some t ↔ s = terminal t := by
  cases s <;> simp [terminal?]

@[simp]
theorem nonterminal?_eq_some {s : Symbol V T} {v : V} :
    s.nonterminal? = some v ↔ s = nonterminal v := by
  cases s <;> simp [nonterminal?]

variable [Name V] [Name T]

def text : Symbol V T → String
  | terminal t => Name.text t
  | nonterminal v => Name.text v

def textAll (symbols : List (Symbol V T)) : String :=
  String.join (symbols.map text)

end Symbol

end ContextFree
