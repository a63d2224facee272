import ContextFree.Symbol

namespace ContextFree

/-- A symbol with the trees below it. A tree need not belong to a grammar: a terminal may have
children too. -/
inductive Tree (V T : Type) where
  | node (symbol : Symbol V T) (children : List (Tree V T))
  deriving Repr

namespace Tree

variable {V T : Type}

def symbol : Tree V T → Symbol V T
  | node s _ => s

def leaf (t : T) : Tree V T :=
  node (.terminal t) []

mutual

def decEq [DecidableEq V] [DecidableEq T] : (a b : Tree V T) → Decidable (a = b)
  | node s ts, node s' ts' =>
    if hs : s = s' then
      match decEqAll ts ts' with
      | isTrue h => isTrue (by rw [hs, h])
      | isFalse h => isFalse fun e => h (Tree.node.inj e).2
    else isFalse fun e => hs (Tree.node.inj e).1

def decEqAll [DecidableEq V] [DecidableEq T] : (as bs : List (Tree V T)) → Decidable (as = bs)
  | [], [] => isTrue rfl
  | [], _ :: _ => isFalse nofun
  | _ :: _, [] => isFalse nofun
  | a :: as, b :: bs =>
    match decEq a b with
    | isTrue h =>
      match decEqAll as bs with
      | isTrue h' => isTrue (by rw [h, h'])
      | isFalse h' => isFalse fun e => h' (List.cons.inj e).2
    | isFalse h => isFalse fun e => h (List.cons.inj e).1

end

instance [DecidableEq V] [DecidableEq T] : DecidableEq (Tree V T) :=
  decEq

mutual

/-- The nodes of a tree in preorder, each with its depth. -/
def outline (depth : Nat) : Tree V T → List (Nat × Symbol V T)
  | node s ts => (depth, s) :: outlineAll (depth + 1) ts

def outlineAll (depth : Nat) : List (Tree V T) → List (Nat × Symbol V T)
  | [] => []
  | t :: ts => outline depth t ++ outlineAll depth ts

end

/-- A line of a shown tree: a node, indented by two blanks for each level above it. -/
def line [Name V] [Name T] (node : Nat × Symbol V T) : String :=
  "".pushn ' ' (2 * node.1) ++ node.2.text ++ "\n"

def text [Name V] [Name T] (t : Tree V T) : String :=
  String.join ((outline 0 t).map line)

mutual

def size : Tree V T → Nat
  | node _ ts => sizeAll ts + 1

def sizeAll : List (Tree V T) → Nat
  | [] => 0
  | t :: ts => size t + sizeAll ts

end

theorem sizeAll_append (ts us : List (Tree V T)) :
    sizeAll (ts ++ us) = sizeAll ts + sizeAll us := by
  induction ts with
  | nil => simp [sizeAll]
  | cons t ts ih => simp [sizeAll, ih, Nat.add_assoc]

/-- The terminals at the leaves of a list of pending trees, which is worked off from the left. The
children of a terminal are passed over. -/
def leavesOf : List (Tree V T) → List T
  | [] => []
  | node (.terminal t) _ :: pending => t :: leavesOf pending
  | node (.nonterminal _) ts :: pending => leavesOf (ts ++ pending)
  termination_by pending => sizeAll pending
  decreasing_by
    all_goals simp only [sizeAll, size, sizeAll_append]
    all_goals omega

def leaves (t : Tree V T) : List T :=
  leavesOf [t]

end Tree

end ContextFree
