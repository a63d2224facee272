import ContextFree.Grouping

namespace ContextFree

/-- What is known of a node that the search has reached. -/
inductive Mark where
  | active
  /-- All edges of the node have been followed without closing a cycle. -/
  | finished
  deriving DecidableEq, Repr

/-- A depth-first search for a cycle in a finite graph, which takes its roots and the successors of
a node in their order. -/
structure CycleSearch (V : Type) where
  roots : List V
  /-- The current path, its last node first, each node with its successors still to be tried. -/
  path : List (V × List V)
  marks : List (V × Mark)

namespace CycleSearch

variable {V : Type} [DecidableEq V]

def mark? (s : CycleSearch V) (v : V) : Option Mark :=
  s.marks.lookup v

/-- Enters a node: it becomes active and the last node of the path. -/
def enter (s : CycleSearch V) (edges : Grouping V V) (v : V) : CycleSearch V :=
  { s with path := (v, edges.find v) :: s.path, marks := (v, .active) :: s.marks }

/-- The cycle closed by an edge from the last node of a path back to a node on it. -/
def close (path : List (V × List V)) (v : V) : List V :=
  (path.map Prod.fst).reverse.dropWhile (· ≠ v) ++ [v]

/-- One step: the search goes on, or it ends with a cycle or without one. -/
def step (edges : Grouping V V) (s : CycleSearch V) : CycleSearch V ⊕ Option (List V) :=
  match s.path with
  | [] =>
    match s.roots with
    | [] => .inr none
    | r :: rs =>
      match s.mark? r with
      | some _ => .inl { s with roots := rs }
      | none => .inl ({ s with roots := rs }.enter edges r)
  | (v, []) :: path => .inl { s with path := path, marks := (v, .finished) :: s.marks }
  | (v, w :: ws) :: path =>
    match s.mark? w with
    | some .active => .inr (some (close s.path w))
    | some .finished => .inl { s with path := (v, ws) :: path }
    | none => .inl ({ s with path := (v, ws) :: path }.enter edges w)

def run (edges : Grouping V V) : Nat → CycleSearch V → Option (List V)
  | 0, _ => none
  | n + 1, s =>
    match s.step edges with
    | .inl s => run edges n s
    | .inr answer => answer

end CycleSearch

/-- The first cycle that the search meets; it starts and ends with the same node. Each root is tried
once, each node is entered and left at most once, and each edge is followed at most once, which
bounds the number of steps. -/
def findCycle {V : Type} [DecidableEq V] (roots : List V) (edges : Grouping V V) :
    Option (List V) :=
  CycleSearch.run edges (2 * (roots.length + edges.size) + 1) ⟨roots, [], []⟩

end ContextFree
