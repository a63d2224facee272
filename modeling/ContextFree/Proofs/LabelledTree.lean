import ContextFree.Proofs.ShiftReduce
import ContextFree.Tree.Basic

namespace ContextFree

variable {V T : Type}

/-- A tree whose inner nodes are labelled with productions. -/
inductive LabelledTree (V T : Type) where
  | leaf (t : T)
  /-- An inner node, which applies a production to its head. -/
  | node (p : Production V T) (children : List (LabelledTree V T))

namespace LabelledTree

/-- The tree without its labels. -/
def erase : LabelledTree V T → Tree V T
  | leaf t => .leaf t
  | node p ds => .node (.nonterminal p.head) (ds.map erase)

/-- The terminals at the leaves. -/
def word : LabelledTree V T → List T
  | leaf t => [t]
  | node _ ds => ds.flatMap word

/-- The numbers of the labels, each in front of those below it. -/
def preorder : LabelledTree V T → List Nat
  | leaf _ => []
  | node p ds => p.number :: ds.flatMap preorder

/-- The numbers of the labels, each behind those below it. -/
def postorder : LabelledTree V T → List Nat
  | leaf _ => []
  | node p ds => ds.flatMap postorder ++ [p.number]

end LabelledTree

open LabelledTree

namespace Grammar

/-- The labelled trees of a string of symbols, one a symbol: a terminal is a leaf, and below a
production stand the trees of its body. -/
inductive Grows (g : Grammar V T) : List (Symbol V T) → List (LabelledTree V T) → Prop
  | nil : Grows g [] []
  | leaf {form : List (Symbol V T)} {ds : List (LabelledTree V T)} (t : T) :
      Grows g form ds → Grows g (.terminal t :: form) (.leaf t :: ds)
  | node {form : List (Symbol V T)} {children ds : List (LabelledTree V T)} {p : Production V T}
      (hp : p ∈ g.productions) :
      Grows g p.body children → Grows g form ds →
        Grows g (.nonterminal p.head :: form) (.node p children :: ds)

variable {g : Grammar V T}

theorem Grows.append {form form' : List (Symbol V T)} {ds es : List (LabelledTree V T)}
    (h : g.Grows form ds) (h' : g.Grows form' es) : g.Grows (form ++ form') (ds ++ es) := by
  induction h with
  | nil => exact h'
  | leaf t _ ih => exact .leaf t ih
  | node hp hbody _ _ ih => exact .node hp hbody ih

theorem Grows.split {form form' : List (Symbol V T)} {fs : List (LabelledTree V T)}
    (h : g.Grows (form ++ form') fs) :
    ∃ ds es, fs = ds ++ es ∧ g.Grows form ds ∧ g.Grows form' es := by
  induction form generalizing fs with
  | nil => exact ⟨[], fs, rfl, .nil, h⟩
  | cons s form ih =>
    cases h with
    | leaf t h =>
      obtain ⟨ds, es, rfl, hd, he⟩ := ih h
      exact ⟨.leaf t :: ds, es, rfl, .leaf t hd, he⟩
    | node hp hbody h =>
      obtain ⟨ds, es, rfl, hd, he⟩ := ih h
      exact ⟨.node _ _ :: ds, es, rfl, .node hp hbody hd, he⟩

/-- A nonterminal has one tree, which applies a production to it. -/
theorem Grows.of_nonterminal {v : V} {ds : List (LabelledTree V T)}
    (h : g.Grows [.nonterminal v] ds) :
    ∃ p children, ds = [.node p children] ∧ p.head = v := by
  cases h with
  | node hp hbody hrest =>
    cases hrest with
    | nil => exact ⟨_, _, rfl, rfl⟩

/-- A left parse of a word lists the labels of trees in preorder, and the word is at their leaves.
-/
theorem Parses.grows {numbers : List Nat} {form : List (Symbol V T)} {w : List T}
    (h : g.Parses numbers form w) :
    ∃ ds, g.Grows form ds ∧ ds.flatMap preorder = numbers ∧ ds.flatMap word = w := by
  induction h with
  | nil => exact ⟨[], .nil, rfl, rfl⟩
  | terminal t _ ih =>
    obtain ⟨ds, hgrows, rfl, rfl⟩ := ih
    exact ⟨.leaf t :: ds, .leaf t hgrows, by simp [preorder], by simp [word]⟩
  | @nonterminal _ form _ p hp _ ih =>
    obtain ⟨fs, hgrows, rfl, rfl⟩ := ih
    obtain ⟨children, ds, rfl, hbody, hrest⟩ := hgrows.split
    exact ⟨.node p children :: ds, .node hp hbody hrest, by simp [preorder], by simp [word]⟩

/-- A run on a stack of trees leaves a stack of trees: the reductions list in postorder the labels
that it adds, and the leaves and the rest of the word stay in their order. -/
theorem Runs.grows {actions : List Action} {a b : List (Symbol V T) × List T}
    (h : g.Runs actions a b) {ds : List (LabelledTree V T)} (hds : g.Grows a.1 ds) :
    ∃ es, g.Grows b.1 es ∧
      es.flatMap postorder = ds.flatMap postorder ++ actions.filterMap Action.number? ∧
      es.flatMap word ++ b.2 = ds.flatMap word ++ a.2 := by
  induction h generalizing ds with
  | nil a => exact ⟨ds, hds, by simp, rfl⟩
  | cons hs _ ih =>
    cases hs with
    | shift stack t rest =>
      obtain ⟨es, hes, hpost, hword⟩ := ih (hds.append (.leaf t .nil))
      refine ⟨es, hes, ?_, ?_⟩
      · simpa [postorder, List.filterMap_cons, Action.number?] using hpost
      · simpa [word] using hword
    | @reduce below rest p hp =>
      obtain ⟨front, children, rfl, hfront, hbody⟩ := hds.split
      obtain ⟨es, hes, hpost, hword⟩ := ih (hfront.append (.node hp hbody .nil))
      refine ⟨es, hes, ?_, ?_⟩
      · simpa [postorder, List.filterMap_cons, Action.number?] using hpost
      · simpa [word] using hword

/-- A left parse from a nonterminal lists in preorder the labels of a tree of the word. -/
theorem LeftParse.grows {v : V} {numbers : List Nat} {w : List T}
    (h : g.LeftParse numbers [.nonterminal v] (w.map .terminal)) :
    ∃ d, g.Grows [.nonterminal v] [d] ∧ d.preorder = numbers ∧ d.word = w := by
  obtain ⟨ds, hds, hpre, hword⟩ := (leftParse_iff_parses.mp h).grows
  obtain ⟨p, children, rfl, _⟩ := hds.of_nonterminal
  exact ⟨.node p children, hds, by simpa using hpre, by simpa using hword⟩

/-- The reductions of an accepted run list in postorder the labels of a tree of the word. -/
theorem Accepts.grows {start : V} {w : List T} {actions : List Action}
    (h : g.Accepts start w actions) :
    ∃ d, g.Grows [.nonterminal start] [d] ∧
      d.postorder = (Action.reductions actions).reverse ∧ d.word = w := by
  obtain ⟨es, hes, hpost, hword⟩ := Runs.grows h .nil
  obtain ⟨p, children, rfl, _⟩ := hes.of_nonterminal
  refine ⟨.node p children, hes, ?_, by simpa using hword⟩
  simpa [Action.reductions] using hpost

end Grammar

/-- Every inner node with its children is an instance of a production, and every terminal is a
leaf. -/
inductive Tree.Follows (g : Grammar V T) : Tree V T → Prop
  | leaf (t : T) : Follows g (.leaf t)
  | node {p : Production V T} {ts : List (Tree V T)} (hp : p ∈ g.productions)
      (hbody : ts.map symbol = p.body) (hts : ∀ t ∈ ts, Follows g t) :
      Follows g (.node (.nonterminal p.head) ts)

namespace Grammar

variable {g : Grammar V T} {form : List (Symbol V T)} {ds : List (LabelledTree V T)}

theorem Grows.map_symbol (h : g.Grows form ds) : (ds.map erase).map Tree.symbol = form := by
  induction h with
  | nil => rfl
  | leaf t _ ih => rw [List.map_cons, List.map_cons, ih, erase]; rfl
  | node hp _ _ _ ih => rw [List.map_cons, List.map_cons, ih, erase]; rfl

theorem Grows.follows (h : g.Grows form ds) : ∀ t ∈ ds.map erase, t.Follows g := by
  induction h with
  | nil => exact fun t ht => by cases ht
  | leaf t _ ih =>
    rw [List.map_cons, List.forall_mem_cons, erase]
    exact ⟨.leaf t, ih⟩
  | node hp hbody _ ihbody ih =>
    rw [List.map_cons, List.forall_mem_cons, erase]
    exact ⟨.node hp hbody.map_symbol ihbody, ih⟩

/-- The leaves of trees without their labels are their word, whatever is pending behind them. -/
theorem Grows.leavesOf (h : g.Grows form ds) (pending : List (Tree V T)) :
    Tree.leavesOf (ds.map erase ++ pending) = ds.flatMap word ++ Tree.leavesOf pending := by
  induction h generalizing pending with
  | nil => rfl
  | leaf t _ ih => simp [erase, word, Tree.leaf, Tree.leavesOf, ih]
  | node _ _ _ ihbody ih => simp [erase, word, Tree.leavesOf, ihbody, ih]

end Grammar

end ContextFree
