import ContextFree.Proofs.Replay

namespace ContextFree

open LabelledTree

variable {V T : Type} {g : Grammar V T} {form : List (Symbol V T)} {ds es : List (LabelledTree V T)}
  {d : LabelledTree V T}

theorem exists_of_bind_eq_ok {ε α β : Type} {x : Except ε α} {f : α → Except ε β} {b : β}
    (h : x >>= f = .ok b) : ∃ a, x = .ok a ∧ f a = .ok b := by
  cases x with
  | error e => cases h
  | ok a => exact ⟨a, rfl, h⟩

namespace Grammar

theorem eq_of_number {p q : Production V T} (hp : p ∈ g.productions) (hq : q ∈ g.productions)
    (h : p.number = q.number) : p = q := by
  have hsame := production?_number hp
  rw [h, production?_number hq] at hsame
  exact (Option.some.inj hsame).symm

theorem Grows.cons_terminal {t : T} (h : g.Grows (.terminal t :: form) ds) :
    ∃ rest, ds = .leaf t :: rest ∧ g.Grows form rest := by
  cases h with
  | leaf _ hrest => exact ⟨_, rfl, hrest⟩

theorem Grows.cons_nonterminal {v : V} (h : g.Grows (.nonterminal v :: form) ds) :
    ∃ p children rest, ds = .node p children :: rest ∧ p ∈ g.productions ∧ p.head = v ∧
      g.Grows p.body children ∧ g.Grows form rest := by
  cases h with
  | node hp hbody hrest => exact ⟨_, _, _, rfl, hp, rfl, hbody, hrest⟩

/-- Trees of the same string are told apart by their preorder, whatever follows it. -/
theorem Grows.eq_of_preorder (h : g.Grows form ds) (h' : g.Grows form es) {rest rest' : List Nat}
    (heq : ds.flatMap preorder ++ rest = es.flatMap preorder ++ rest') :
    ds = es ∧ rest = rest' := by
  induction h generalizing es rest rest' with
  | nil =>
    cases h' with
    | nil => exact ⟨rfl, heq⟩
  | leaf t _ ih =>
    obtain ⟨es, rfl, hrest⟩ := h'.cons_terminal
    obtain ⟨rfl, hsame⟩ := ih hrest (by simpa [preorder] using heq)
    exact ⟨rfl, hsame⟩
  | @node form children ds p hp _ _ ihbody ih =>
    obtain ⟨q, children', es, rfl, hq, _, hbody, hrest⟩ := h'.cons_nonterminal
    simp only [List.flatMap_cons, preorder, List.cons_append, List.append_assoc,
      List.cons.injEq] at heq
    obtain rfl := eq_of_number hp hq heq.1
    obtain ⟨rfl, hfollowing⟩ := ihbody hbody heq.2
    obtain ⟨rfl, hsame⟩ := ih hrest hfollowing
    exact ⟨rfl, hsame⟩

/-- A tree that grows from some nonterminal. -/
def Rooted (g : Grammar V T) (d : LabelledTree V T) : Prop :=
  ∃ v, g.Grows [.nonterminal v] [d]

theorem Rooted.exists_node (h : g.Rooted d) :
    ∃ p children, d = .node p children ∧ p ∈ g.productions ∧ g.Grows p.body children := by
  obtain ⟨v, hgrows⟩ := h
  obtain ⟨p, children, rest, heq, hp, _, hbody, _⟩ := hgrows.cons_nonterminal
  cases heq
  exact ⟨p, children, rfl, hp, hbody⟩

theorem rooted_node {p : Production V T} (hp : p ∈ g.productions) (h : g.Grows p.body ds) :
    g.Rooted (.node p ds) :=
  ⟨p.head, .node hp h .nil⟩

end Grammar

section Left

variable [DecidableEq V]

omit [DecidableEq V] in
/-- Trees that grow from a list of numbers have what is used up of the list for their preorder. -/
theorem Tree.growAll_eq_ok {grow : V → List Nat → Except ReplayError (Tree V T × List Nat)}
    (hgrow : ∀ v parse tree rest, grow v parse = .ok (tree, rest) →
      ∃ d, g.Grows [.nonterminal v] [d] ∧ tree = d.erase ∧ parse = d.preorder ++ rest)
    {body : List (Symbol V T)} {parse rest : List Nat} {ts : List (Tree V T)}
    (h : growAll grow body parse = .ok (ts, rest)) :
    ∃ ds, g.Grows body ds ∧ ts = ds.map erase ∧ parse = ds.flatMap preorder ++ rest := by
  induction body generalizing parse ts with
  | nil =>
    cases h
    exact ⟨[], .nil, rfl, rfl⟩
  | cons s body ih =>
    cases s with
    | terminal t =>
      obtain ⟨⟨us, rest'⟩, hrest, heq⟩ := exists_of_bind_eq_ok h
      cases heq
      obtain ⟨ds, hds, rfl, rfl⟩ := ih hrest
      exact ⟨.leaf t :: ds, .leaf t hds, by simp [erase], by simp [preorder]⟩
    | nonterminal v =>
      obtain ⟨⟨tree, middle⟩, hfirst, h'⟩ := exists_of_bind_eq_ok h
      obtain ⟨⟨us, rest'⟩, hrest, heq⟩ := exists_of_bind_eq_ok h'
      cases heq
      obtain ⟨d, hd, rfl, rfl⟩ := hgrow v parse tree middle hfirst
      obtain ⟨ds, hds, rfl, rfl⟩ := ih hrest
      exact ⟨d :: ds, hd.append hds, by simp, by simp⟩

theorem Tree.grow_eq_ok {height : Nat} {v : V} {parse rest : List Nat} {tree : Tree V T}
    (h : grow g height v parse = .ok (tree, rest)) :
    ∃ d, g.Grows [.nonterminal v] [d] ∧ tree = d.erase ∧ parse = d.preorder ++ rest := by
  induction height generalizing v parse tree rest with
  | zero => cases h
  | succ height ih =>
    cases parse with
    | nil => cases h
    | cons n parse =>
      rw [grow] at h
      split at h
      · cases h
      · rename_i p hp
        obtain ⟨hin, rfl⟩ := Grammar.production?_eq_some.mp hp
        split at h
        · rename_i hhead
          subst hhead
          obtain ⟨⟨ts, rest'⟩, hbody, heq⟩ := exists_of_bind_eq_ok h
          cases heq
          obtain ⟨ds, hds, rfl, rfl⟩ := growAll_eq_ok (fun _ _ _ _ => ih) hbody
          exact ⟨.node p ds, .node hin hds .nil, by simp [erase], by simp [preorder]⟩
        · cases h

/-- A left parse that can be replayed is the preorder of a tree of the start. -/
theorem Tree.ofLeftParse_eq_ok {start : V} (hstart : g.start = some start) {list : List Nat}
    {tree : Tree V T} (h : ofLeftParse g list = .ok tree) :
    ∃ d, g.Grows [.nonterminal start] [d] ∧ d.preorder = list ∧ d.erase = tree := by
  rw [ofLeftParse, hstart] at h
  simp only at h
  split at h
  · cases h
  · rename_i hgrow
    cases h
    obtain ⟨d, hd, rfl, hlist⟩ := grow_eq_ok hgrow
    exact ⟨d, hd, by rw [hlist, List.append_nil], rfl⟩
  · cases h

end Left

section Right

namespace LabelledTree

/-- Whether a tree applies a production at its root. -/
def isNode : LabelledTree V T → Bool
  | leaf _ => false
  | node _ _ => true

@[simp]
theorem isNode_leaf (t : T) : (leaf t : LabelledTree V T).isNode = false := rfl

@[simp]
theorem isNode_node (p : Production V T) (children : List (LabelledTree V T)) :
    (node p children).isNode = true := rfl

theorem flatMap_postorder_isNode (ds : List (LabelledTree V T)) :
    (ds.filter isNode).flatMap postorder = ds.flatMap postorder := by
  induction ds with
  | nil => rfl
  | cons d ds ih => cases d <;> simp [List.filter_cons, postorder, ih]

end LabelledTree

namespace Grammar

theorem Grows.rooted (h : g.Grows form ds) : ∀ d ∈ ds.filter isNode, g.Rooted d := by
  induction h with
  | nil => simp
  | leaf t _ ih => simpa using ih
  | node hp hbody _ _ ih =>
    rw [List.filter_cons_of_pos rfl, List.forall_mem_cons]
    exact ⟨rooted_node hp hbody, ih⟩

/-- The leaves among the trees of a string are known from the string. -/
theorem Grows.eq_of_filter_isNode (h : g.Grows form ds) (h' : g.Grows form es)
    (heq : ds.filter isNode = es.filter isNode) : ds = es := by
  induction h generalizing es with
  | nil =>
    cases h' with
    | nil => rfl
  | leaf t _ ih =>
    obtain ⟨es, rfl, hrest⟩ := h'.cons_terminal
    rw [ih hrest (by simpa using heq)]
  | node hp _ _ _ ih =>
    obtain ⟨q, children', es, rfl, _, _, _, hrest⟩ := h'.cons_nonterminal
    rw [List.filter_cons_of_pos rfl, List.filter_cons_of_pos rfl, List.cons.injEq] at heq
    rw [heq.1, ih hrest heq.2]

theorem Grows.length_filter_isNode (h : g.Grows form ds) :
    (ds.filter isNode).length = (form.filterMap Symbol.nonterminal?).length := by
  induction h with
  | nil => rfl
  | leaf t _ ih => simpa [Symbol.nonterminal?, List.filterMap_cons] using ih
  | node hp _ _ _ ih => simpa [List.filter_cons, Symbol.nonterminal?, List.filterMap_cons] using ih

/-- The last number of the postorder of some trees is the label of the last tree; the numbers in
front of it are the postorder of the other trees together with those below the label. -/
theorem exists_last_of_postorder (hds : ∀ d ∈ ds, g.Rooted d) {list : List Nat} {n : Nat}
    (h : ds.flatMap postorder = list ++ [n]) :
    ∃ front p children, ds = front ++ [.node p children] ∧ p ∈ g.productions ∧ p.number = n ∧
      g.Grows p.body children ∧ (∀ d ∈ front ++ children.filter isNode, g.Rooted d) ∧
      (front ++ children.filter isNode).flatMap postorder = list := by
  rcases List.eq_nil_or_concat ds with rfl | ⟨front, d, rfl⟩
  · simp at h
  · rw [List.concat_eq_append] at hds h ⊢
    obtain ⟨hfront, hd⟩ := List.forall_mem_append.mp hds
    obtain ⟨p, children, rfl, hp, hbody⟩ := (hd d (List.mem_singleton_self d)).exists_node
    rw [List.flatMap_append, List.flatMap_singleton, postorder, ← List.append_assoc] at h
    obtain ⟨hlist, hn⟩ := List.append_inj' h rfl
    refine ⟨front, p, children, rfl, hp, List.singleton_inj.mp hn, hbody,
      List.forall_mem_append.mpr ⟨hfront, hbody.rooted⟩, ?_⟩
    rw [List.flatMap_append, flatMap_postorder_isNode, hlist]

/-- Trees of nonterminals are told apart by their postorder. -/
theorem eq_of_postorder (hds : ∀ d ∈ ds, g.Rooted d) (hes : ∀ d ∈ es, g.Rooted d)
    (h : ds.flatMap postorder = es.flatMap postorder) : ds = es := by
  -- A number is taken off the end: below its label stand trees that its body tells from the others.
  generalize hlist : ds.flatMap postorder = list at h
  induction list using List.reverseRecOn generalizing ds es with
  | nil =>
    have hnil : ∀ fs : List (LabelledTree V T), (∀ d ∈ fs, g.Rooted d) →
        fs.flatMap postorder = [] → fs = [] := by
      intro fs hfs hpost
      cases fs with
      | nil => rfl
      | cons d fs =>
        obtain ⟨p, children, rfl, _⟩ := (hfs d List.mem_cons_self).exists_node
        simp [postorder] at hpost
    rw [hnil ds hds hlist, hnil es hes h.symm]
  | append_singleton list n ih =>
    obtain ⟨front, p, children, rfl, hp, rfl, hbody, hrooted, hpost⟩ :=
      exists_last_of_postorder hds hlist
    obtain ⟨front', q, children', rfl, hq, hnumber, hbody', hrooted', hpost'⟩ :=
      exists_last_of_postorder hes h.symm
    obtain rfl := eq_of_number hq hp hnumber
    have hlength : (children.filter isNode).length = (children'.filter isNode).length := by
      rw [hbody.length_filter_isNode, hbody'.length_filter_isNode]
    obtain ⟨rfl, hnodes⟩ := List.append_inj' (ih hrooted hrooted' hpost hpost'.symm) hlength
    rw [hbody.eq_of_filter_isNode hbody' hnodes]

end Grammar

variable [DecidableEq V] [DecidableEq T]

/-- The children that are gathered from a stack of trees for a reversed body grow from the body. -/
theorem Tree.gather_eq_ok {number : Nat} {body : List (Symbol V T)}
    {taken ts rest : List (Tree V T)} (hds : ∀ d ∈ ds, g.Rooted d)
    (h : gather number body taken (ds.map erase).reverse = .ok (ts, rest)) :
    ∃ front children, ds = front ++ children.filter isNode ∧ g.Grows body.reverse children ∧
      ts = children.map erase ++ taken ∧ rest = (front.map erase).reverse := by
  induction body generalizing taken ds with
  | nil =>
    cases h
    exact ⟨ds, [], by simp, .nil, rfl, rfl⟩
  | cons s body ih =>
    cases s with
    | terminal t =>
      obtain ⟨front, children, rfl, hgrows, rfl, rfl⟩ := ih hds h
      refine ⟨front, children ++ [.leaf t], by simp, ?_, by simp [erase], rfl⟩
      rw [List.reverse_cons]
      exact hgrows.append (.leaf t .nil)
    | nonterminal v =>
      rcases List.eq_nil_or_concat ds with rfl | ⟨front, d, rfl⟩
      · cases h
      · rw [List.concat_eq_append] at hds h ⊢
        obtain ⟨hfront, hd⟩ := List.forall_mem_append.mp hds
        obtain ⟨p, below, rfl, hp, hbody⟩ := (hd d (List.mem_singleton_self d)).exists_node
        rw [List.map_append, List.reverse_append, List.map_singleton, List.reverse_singleton,
          List.singleton_append, gather] at h
        split at h
        · rename_i hsymbol
          obtain ⟨front, children, rfl, hgrows, rfl, rfl⟩ := ih hfront h
          refine ⟨front, children ++ [.node p below], by simp [List.filter_cons], ?_, by simp, rfl⟩
          rw [erase, Tree.symbol, Symbol.nonterminal.injEq] at hsymbol
          rw [List.reverse_cons, ← hsymbol]
          exact hgrows.append (.node hp hbody .nil)
        · cases h

/-- The stack that a list of numbers leaves holds the trees of which the list is the postorder. -/
theorem Tree.foldlM_assemble_eq_ok {list : List Nat} {stack : List (Tree V T)}
    (h : list.foldlM (assemble g) [] = .ok stack) :
    ∃ ds : List (LabelledTree V T), (∀ d ∈ ds, g.Rooted d) ∧ ds.flatMap postorder = list ∧
      stack = (ds.map erase).reverse := by
  induction list using List.reverseRecOn generalizing stack with
  | nil =>
    cases h
    exact ⟨[], by simp, rfl, rfl⟩
  | append_singleton list n ih =>
    rw [List.foldlM_append] at h
    obtain ⟨before, hbefore, hlast⟩ := exists_of_bind_eq_ok h
    obtain ⟨ds, hds, rfl, rfl⟩ := ih hbefore
    obtain ⟨after, hstep, heq⟩ := exists_of_bind_eq_ok hlast
    cases heq
    rw [assemble] at hstep
    split at hstep
    · cases hstep
    · rename_i p hp
      obtain ⟨hin, rfl⟩ := Grammar.production?_eq_some.mp hp
      obtain ⟨⟨ts, rest⟩, hgather, heq⟩ := exists_of_bind_eq_ok hstep
      cases heq
      obtain ⟨front, children, rfl, hgrows, rfl, rfl⟩ := gather_eq_ok hds hgather
      rw [List.reverse_reverse] at hgrows
      refine ⟨front ++ [.node p children], ?_, ?_, ?_⟩
      · rw [List.forall_mem_append, List.forall_mem_singleton]
        exact ⟨(List.forall_mem_append.mp hds).1, Grammar.rooted_node hin hgrows⟩
      · simp [postorder, flatMap_postorder_isNode]
      · simp [erase]

/-- A right parse that can be replayed is the postorder of a tree of the start. -/
theorem Tree.ofRightParse_eq_ok {start : V} (hstart : g.start = some start) {list : List Nat}
    {tree : Tree V T} (h : ofRightParse g list = .ok tree) :
    ∃ d, g.Grows [.nonterminal start] [d] ∧ d.postorder = list ∧ d.erase = tree := by
  rw [ofRightParse, hstart] at h
  obtain ⟨stack, hstack, hroot⟩ := exists_of_bind_eq_ok h
  obtain ⟨ds, hds, rfl, rfl⟩ := foldlM_assemble_eq_ok hstack
  split at hroot
  · rename_i t heq
    obtain ⟨d, rfl⟩ : ∃ d, ds = [d] := by
      rw [← List.length_eq_one_iff, ← List.length_map (f := erase), ← List.length_reverse, heq]
      rfl
    obtain ⟨p, children, rfl, hp, hbody⟩ := (hds d (List.mem_singleton_self d)).exists_node
    rw [List.map_singleton, List.reverse_singleton, List.singleton_inj] at heq
    subst heq
    split at hroot
    · rename_i hsymbol
      cases hroot
      rw [erase, Tree.symbol, Symbol.nonterminal.injEq] at hsymbol
      subst hsymbol
      exact ⟨.node p children, .node hp hbody .nil, by simp, rfl⟩
    · cases hroot
  · cases hroot

end Right

/-- Replaying inverts the listing of labels. The preorder of a tree of the start is a left parse and
its postorder a right parse of the tree without its labels; and whatever list can be replayed to a
tree lists the labels of exactly one tree of the start, which is the replayed one without them. -/
theorem Tree.replay_exact [DecidableEq V] [DecidableEq T] {start : V}
    (hstart : g.start = some start) :
    (∀ d, g.Grows [.nonterminal start] [d] →
      ofLeftParse g d.preorder = .ok d.erase ∧ ofRightParse g d.postorder = .ok d.erase) ∧
    (∀ list tree, ofLeftParse g list = .ok tree →
      ∃ d, (g.Grows [.nonterminal start] [d] ∧ d.preorder = list) ∧ d.erase = tree ∧
        ∀ d', g.Grows [.nonterminal start] [d'] → d'.preorder = list → d' = d) ∧
    ∀ list tree, ofRightParse g list = .ok tree →
      ∃ d, (g.Grows [.nonterminal start] [d] ∧ d.postorder = list) ∧ d.erase = tree ∧
        ∀ d', g.Grows [.nonterminal start] [d'] → d'.postorder = list → d' = d := by
  refine ⟨fun d hd => ?_, fun list tree h => ?_, fun list tree h => ?_⟩
  · exact ⟨hd.ofLeftParse_preorder hstart, hd.ofRightParse_postorder hstart⟩
  · obtain ⟨d, hd, rfl, htree⟩ := ofLeftParse_eq_ok hstart h
    refine ⟨d, ⟨hd, rfl⟩, htree, fun d' hd' hlist => ?_⟩
    have heq : [d'].flatMap LabelledTree.preorder ++ [] =
        [d].flatMap LabelledTree.preorder ++ [] := by simpa using hlist
    exact List.singleton_inj.mp (hd'.eq_of_preorder hd heq).1
  · obtain ⟨d, hd, rfl, htree⟩ := ofRightParse_eq_ok hstart h
    refine ⟨d, ⟨hd, rfl⟩, htree, fun d' hd' hlist => ?_⟩
    have hrooted : ∀ d, g.Grows [.nonterminal start] [d] → ∀ e ∈ [d], g.Rooted e :=
      fun d hd => List.forall_mem_singleton.mpr ⟨start, hd⟩
    have hsame := Grammar.eq_of_postorder (hrooted d' hd') (hrooted d hd) (by simpa using hlist)
    exact List.singleton_inj.mp hsame

/-- Two productions of the same body, and one with an empty body. -/
def twins : Grammar Char Char :=
  .ofRules none [⟨'S', [.nonterminal 'E', .nonterminal 'E']⟩, ⟨'E', [.terminal 'a']⟩,
    ⟨'E', [.terminal 'a']⟩, ⟨'E', []⟩]

/-- The labels of a replayed tree are known, although equal bodies hide them in the tree. -/
theorem Tree.replay_exact_twins :
    twins.start = some 'S' ∧
      (∃ tree, ofLeftParse twins [1, 3, 4] = .ok tree ∧ ofLeftParse twins [1, 2, 4] = .ok tree) ∧
      (∃ d, (twins.Grows [.nonterminal 'S'] [d] ∧ d.preorder = [1, 3, 4]) ∧
        ∀ d', twins.Grows [.nonterminal 'S'] [d'] → d'.preorder = [1, 3, 4] → d' = d) ∧
      ∃ d, (twins.Grows [.nonterminal 'S'] [d] ∧ d.postorder = [3, 4, 1]) ∧
        ∀ d', twins.Grows [.nonterminal 'S'] [d'] → d'.postorder = [3, 4, 1] → d' = d := by
  have hstart : twins.start = some 'S' := rfl
  obtain ⟨_, hleft, hright⟩ := replay_exact hstart
  obtain ⟨d, hd, _, hunique⟩ := hleft [1, 3, 4] _ rfl
  obtain ⟨d', hd', _, hunique'⟩ := hright [3, 4, 1] _ rfl
  exact ⟨hstart, ⟨_, rfl, rfl⟩, ⟨d, hd, hunique⟩, d', hd', hunique'⟩

end ContextFree
