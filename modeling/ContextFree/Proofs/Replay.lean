import ContextFree.Proofs.LabelledTree
import ContextFree.Tree.Replay

namespace ContextFree

open LabelledTree

variable {V T : Type} {g : Grammar V T} {form : List (Symbol V T)} {ds : List (LabelledTree V T)}

/-- The stack of a right parse behind some trees: only trees of nonterminals are kept on it. -/
def LabelledTree.stacked : List (LabelledTree V T) → List (Tree V T) → List (Tree V T)
  | [], stack => stack
  | .leaf _ :: ds, stack => stacked ds stack
  | .node p children :: ds, stack => stacked ds (erase (.node p children) :: stack)

theorem Grammar.production?_number {p : Production V T} (hp : p ∈ g.productions) :
    g.production? p.number = some p :=
  Grammar.production?_eq_some.mpr ⟨hp, rfl⟩

theorem Grammar.production?_eq_none {n : Nat} :
    g.production? n = none ↔ ∀ p ∈ g.productions, p.number ≠ n := by
  rw [Option.eq_none_iff_forall_ne_some]
  constructor
  · intro h p hp hn
    exact h p (production?_eq_some.mpr ⟨hp, hn⟩)
  · intro h p hp
    obtain ⟨hin, hn⟩ := production?_eq_some.mp hp
    exact h p hin hn

section Left

variable [DecidableEq V]

namespace Grammar.Grows

/-- Trees grow back from their numbers in preorder, and what follows these is left over. -/
theorem growAll_preorder (h : g.Grows form ds) (height : Nat)
    (hheight : (ds.flatMap preorder).length ≤ height) (rest : List Nat) :
    Tree.growAll (Tree.grow g height) form (ds.flatMap preorder ++ rest) =
      .ok (ds.map erase, rest) := by
  induction h generalizing height rest with
  | nil => rfl
  | leaf t _ ih =>
    have hrest := ih height (by simpa [preorder] using hheight) rest
    simp only [List.flatMap_cons, preorder, List.nil_append, Tree.growAll, hrest, List.map_cons,
      erase]
    rfl
  | @node form children ds p hp _ _ ihbody ih =>
    simp only [List.flatMap_cons, preorder, List.cons_append, List.length_cons,
      List.length_append] at hheight
    obtain ⟨k, rfl⟩ : ∃ k, height = k + 1 := ⟨height - 1, by omega⟩
    have hbody := ihbody k (by omega) (ds.flatMap preorder ++ rest)
    have hrest := ih (k + 1) (by omega) rest
    have hnode : Tree.grow g (k + 1) p.head
        (p.number :: (children.flatMap preorder ++ (ds.flatMap preorder ++ rest))) =
          .ok (erase (.node p children), ds.flatMap preorder ++ rest) := by
      simp only [Tree.grow, production?_number hp, if_true, hbody, erase]
      rfl
    simp only [List.flatMap_cons, preorder, List.cons_append, List.append_assoc, Tree.growAll,
      hnode]
    simp only [bind, Except.bind, hrest]
    rfl

/-- The preorder of a tree of the start is a left parse of the tree. -/
theorem ofLeftParse_preorder {start : V} {d : LabelledTree V T} (hstart : g.start = some start)
    (h : g.Grows [.nonterminal start] [d]) : Tree.ofLeftParse g d.preorder = .ok d.erase := by
  have hgrow := h.growAll_preorder d.preorder.length (by simp) []
  simp only [List.flatMap_cons, List.flatMap_nil, List.append_nil, Tree.growAll] at hgrow
  simp only [Tree.ofLeftParse, hstart]
  cases htree : Tree.grow g d.preorder.length start d.preorder with
  | error e =>
    rw [htree] at hgrow
    cases hgrow
  | ok result =>
    obtain ⟨tree, rest⟩ := result
    rw [htree] at hgrow
    cases hgrow
    rfl

end Grammar.Grows

end Left

section Right

variable [DecidableEq V] [DecidableEq T]

/-- The children for one part of a reversed body are taken before those for the next one. -/
theorem Tree.gather_append (number : Nat) (body body' : List (Symbol V T))
    (taken stack : List (Tree V T)) :
    gather number (body ++ body') taken stack =
      (gather number body taken stack).bind fun r => gather number body' r.1 r.2 := by
  fun_induction gather number body taken stack <;> simp_all [gather, Except.bind]

namespace Grammar.Grows

/-- The trees of a body are taken off the stack together with its leaves. -/
theorem gather_reverse (h : g.Grows form ds) (number : Nat) (taken stack : List (Tree V T)) :
    Tree.gather number form.reverse taken (stacked ds stack) =
      .ok (ds.map erase ++ taken, stack) := by
  induction h generalizing stack with
  | nil => rfl
  | leaf t _ ih =>
    rw [List.reverse_cons, Tree.gather_append, stacked, ih]
    simp [Except.bind, Tree.gather, erase]
  | @node _ children _ p _ _ _ _ ih =>
    rw [List.reverse_cons, Tree.gather_append, stacked, ih]
    simp [Except.bind, Tree.gather, erase, Tree.symbol]

/-- The numbers of trees in postorder put them on the stack. -/
theorem foldlM_postorder (h : g.Grows form ds) (stack : List (Tree V T)) :
    (ds.flatMap postorder).foldlM (Tree.assemble g) stack = .ok (stacked ds stack) := by
  induction h generalizing stack with
  | nil => rfl
  | leaf t _ ih => rw [List.flatMap_cons, postorder, List.nil_append, ih, stacked]
  | @node _ children ds p hp hbody _ ihbody ih =>
    have hnode : Tree.assemble g (stacked children stack) p.number =
        .ok (erase (.node p children) :: stack) := by
      simp only [Tree.assemble, production?_number hp, hbody.gather_reverse]
      simp [bind, Except.bind, erase, pure, Except.pure]
    rw [List.flatMap_cons, postorder, List.append_assoc, List.foldlM_append, ihbody]
    simp only [bind, Except.bind, List.singleton_append, List.foldlM_cons, hnode, ih, stacked]

/-- The postorder of a tree of the start is a right parse of the tree. -/
theorem ofRightParse_postorder {start : V} {d : LabelledTree V T} (hstart : g.start = some start)
    (h : g.Grows [.nonterminal start] [d]) : Tree.ofRightParse g d.postorder = .ok d.erase := by
  have hfold := h.foldlM_postorder []
  obtain ⟨p, children, hd, rfl⟩ := h.of_nonterminal
  cases hd
  rw [List.flatMap_singleton, stacked, stacked] at hfold
  rw [Tree.ofRightParse, hstart, hfold, erase]
  simp [bind, Except.bind, Tree.symbol]

end Grammar.Grows

end Right

end ContextFree
