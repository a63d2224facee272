import ContextFree.Grouping
import ContextFree.Symbol

namespace ContextFree

structure Rule (V T : Type) where
  head : V
  body : List (Symbol V T)
  deriving DecidableEq, Repr

/-- A rule with its number in a grammar. -/
structure Production (V T : Type) extends Rule V T where
  number : Nat
  deriving DecidableEq, Repr

variable {V T : Type}

/-- The nonterminal that a body of just one nonterminal stands for. -/
def Rule.unit? (r : Rule V T) : Option V :=
  match r.body with
  | [.nonterminal v] => some v
  | _ => none

theorem Rule.unit?_eq_some {r : Rule V T} {v : V} :
    r.unit? = some v ↔ r.body = [.nonterminal v] := by
  unfold Rule.unit?
  split <;> simp_all

def Rule.text [Name V] [Name T] (r : Rule V T) : String :=
  Name.text r.head ++ " ->" ++ (if r.body.isEmpty then "" else " ") ++ Symbol.textAll r.body

/-- Numbered productions with a start nonterminal, which is missing only if nothing sets it. A
grammar need not be well formed: it may be empty, its start may have no production, and bodies may
use nonterminals that have none. -/
structure Grammar (V T : Type) where
  start : Option V
  productions : List (Production V T)
  numbered : ∀ i p, productions[i]? = some p → p.number = i + 1

namespace Grammar

/-- Numbers rules in their order; without an explicit start the first head is the start. -/
def ofRules (start : Option V) (rules : List (Rule V T)) : Grammar V T where
  start := start <|> rules.head?.map Rule.head
  productions := rules.mapIdx fun i r => ⟨r, i + 1⟩
  numbered := by
    intro i p h
    rw [List.getElem?_mapIdx] at h
    obtain ⟨r, _, rfl⟩ := Option.map_eq_some_iff.mp h
    rfl

@[simp]
theorem map_toRule_ofRules (start : Option V) (rules : List (Rule V T)) :
    (ofRules start rules).productions.map Production.toRule = rules := by
  apply List.ext_getElem? fun i => ?_
  simp [ofRules, List.getElem?_mapIdx, Function.comp_def]

def production? (g : Grammar V T) : Nat → Option (Production V T)
  | 0 => none
  | n + 1 => g.productions[n]?

theorem production?_eq_some {g : Grammar V T} {n : Nat} {p : Production V T} :
    g.production? n = some p ↔ p ∈ g.productions ∧ p.number = n := by
  constructor
  · intro h
    cases n with
    | zero => simp [production?] at h
    | succ n => exact ⟨List.mem_of_getElem? h, g.numbered n p h⟩
  · intro h
    obtain ⟨hm, rfl⟩ := h
    obtain ⟨i, hi⟩ := List.getElem?_of_mem hm
    rw [g.numbered i p hi]
    exact hi

theorem number_pos {g : Grammar V T} {p : Production V T} (hp : p ∈ g.productions) :
    0 < p.number := by
  obtain ⟨i, hi⟩ := List.getElem?_of_mem hp
  rw [g.numbered i p hi]
  exact Nat.succ_pos i

/-- The productions are listed by ascending number. -/
theorem pairwise_number (g : Grammar V T) :
    g.productions.Pairwise fun p q => p.number < q.number := by
  rw [List.pairwise_iff_getElem]
  intro i j hi hj hlt
  rw [g.numbered i _ (List.getElem?_eq_getElem hi), g.numbered j _ (List.getElem?_eq_getElem hj)]
  omega

def terminals (g : Grammar V T) : List T :=
  g.productions.flatMap fun p => p.body.filterMap Symbol.terminal?

/-- Whether a terminal belongs to the alphabet, which holds the terminals that occur in bodies. -/
def isTerminal [DecidableEq T] (g : Grammar V T) (t : T) : Bool :=
  decide (t ∈ g.terminals)

theorem isTerminal_iff [DecidableEq T] {g : Grammar V T} {t : T} :
    g.isTerminal t ↔ ∃ p ∈ g.productions, .terminal t ∈ p.body := by
  unfold isTerminal
  rw [decide_eq_true_iff]
  simp [terminals]

def text [Name V] [Name T] (g : Grammar V T) : String :=
  String.join (g.productions.map fun p => p.toRule.text ++ "\n")

variable [DecidableEq V]

def byHead (g : Grammar V T) : Grouping V (Production V T) :=
  .ofList (g.productions.map fun p => (p.head, p))

/-- The nonterminals with productions, in order of first declaration. -/
def heads (g : Grammar V T) : List V :=
  g.byHead.keys

def alternatives (g : Grammar V T) (v : V) : List (Production V T) :=
  g.byHead.find v

def isDefined (g : Grammar V T) (v : V) : Bool :=
  decide (v ∈ g.heads)

theorem find_byHead (g : Grammar V T) (v : V) :
    g.byHead.find v = g.productions.filter fun p => p.head = v := by
  simp [byHead, Grouping.find_ofList, List.filter_map, Function.comp_def]

theorem mem_alternatives {g : Grammar V T} {v : V} {p : Production V T} :
    p ∈ g.alternatives v ↔ p ∈ g.productions ∧ p.head = v := by
  rw [alternatives, find_byHead, List.mem_filter, decide_eq_true_iff]

/-- The alternatives of a nonterminal are listed by ascending number. -/
theorem pairwise_alternatives (g : Grammar V T) (v : V) :
    (g.alternatives v).Pairwise fun p q => p.number < q.number := by
  rw [alternatives, find_byHead]
  exact g.pairwise_number.filter _

theorem heads_eq (g : Grammar V T) :
    g.heads = Grouping.firsts (g.productions.map fun p => p.head) := by
  simp [heads, byHead, Grouping.keys_ofList, Function.comp_def]

theorem mem_heads {g : Grammar V T} {v : V} : v ∈ g.heads ↔ ∃ p ∈ g.productions, p.head = v := by
  simp [heads, Grouping.mem_keys_iff, find_byHead]

theorem isDefined_iff {g : Grammar V T} {v : V} :
    g.isDefined v ↔ ∃ p ∈ g.productions, p.head = v := by
  rw [isDefined, decide_eq_true_iff]
  exact mem_heads

end Grammar

end ContextFree
