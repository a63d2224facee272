import ContextFree.Proofs.Decoding

namespace ContextFree

open LabelledTree

variable {V T : Type} {g : Grammar V T} {ds es : List (LabelledTree V T)} {d : LabelledTree V T}
  {list done : List Nat} {n : Nat}

/-- The nonterminal that a tree rewrites at its root. -/
def LabelledTree.root? : LabelledTree V T → Option V
  | leaf _ => none
  | node p _ => some p.head

/-- The roots of trees, from left to right. -/
def LabelledTree.roots (ds : List (LabelledTree V T)) : List V :=
  ds.filterMap root?

/-- A list of numbers is the postorder of trees that grow from some nonterminals. -/
structure Grammar.Forest (g : Grammar V T) (ds : List (LabelledTree V T)) (list : List Nat) :
    Prop where
  rooted : ∀ d ∈ ds, g.Rooted d
  postorder : ds.flatMap postorder = list

section Comparison

variable {wanted roots : List V} {v w : V}

/-- Compared from the right, the roots run out before they differ from the wanted ones. -/
def Lacks (wanted roots : List V) : Prop :=
  roots <:+ wanted ∧ roots ≠ wanted

/-- Compared from the right, the roots differ from the wanted ones before any of them run out. -/
def Clashes (wanted roots : List V) : Prop :=
  ∃ front v front' w common,
    wanted = front ++ v :: common ∧ roots = front' ++ w :: common ∧ v ≠ w

theorem lacks_nil (wanted : List V) (v : V) : Lacks (wanted ++ [v]) [] :=
  ⟨List.nil_suffix, by simp⟩

theorem Lacks.concat (h : Lacks wanted roots) (v : V) : Lacks (wanted ++ [v]) (roots ++ [v]) := by
  obtain ⟨⟨front, rfl⟩, hne⟩ := h
  exact ⟨⟨front, by simp⟩, by simpa using hne⟩

theorem clashes_concat (wanted roots : List V) (h : v ≠ w) :
    Clashes (wanted ++ [v]) (roots ++ [w]) :=
  ⟨wanted, v, roots, w, [], rfl, rfl, h⟩

theorem Clashes.concat (h : Clashes wanted roots) (v : V) :
    Clashes (wanted ++ [v]) (roots ++ [v]) := by
  obtain ⟨front, x, front', y, common, rfl, rfl, hne⟩ := h
  exact ⟨front, x, front', y, common ++ [v], by simp, by simp, hne⟩

/-- Roots that run out have not differed before. -/
theorem Lacks.not_clashes (h : Lacks wanted roots) : ¬ Clashes wanted roots := by
  rintro ⟨front, v, front', w, common, rfl, rfl, hne⟩
  obtain ⟨⟨more, heq⟩, _⟩ := h
  have hsame : (more ++ front') ++ w :: common = front ++ v :: common := by simpa using heq
  obtain ⟨_, hcons⟩ := List.append_inj' hsame rfl
  exact hne (List.cons.inj hcons).1.symm

end Comparison

namespace Grammar

theorem forest_nil : g.Forest [] [] :=
  ⟨by simp, rfl⟩

/-- Without its last number, the postorder of a forest is that of another one. -/
theorem Forest.exists_front (h : g.Forest ds (list ++ [n])) : ∃ es, g.Forest es list := by
  obtain ⟨_, _, _, _, _, _, _, hrooted, hpost⟩ := exists_last_of_postorder h.rooted h.postorder
  exact ⟨_, hrooted, hpost⟩

theorem Forest.exists_of_prefix {front : List Nat} (h : g.Forest ds list)
    (hfront : front <+: list) : ∃ es, g.Forest es front := by
  obtain ⟨more, rfl⟩ := hfront
  induction more using List.reverseRecOn generalizing ds with
  | nil =>
    rw [List.append_nil] at h
    exact ⟨ds, h⟩
  | append_singleton more n ih =>
    rw [← List.append_assoc] at h
    obtain ⟨es, hes⟩ := h.exists_front
    exact ih hes

/-- A list that is not the postorder of a forest has a first number at which it ceases to be. -/
theorem exists_first_failure (h : ∀ ds, ¬ g.Forest ds list) :
    ∃ done n rest ds, list = done ++ n :: rest ∧ g.Forest ds done ∧
      ∀ es, ¬ g.Forest es (done ++ [n]) := by
  induction list using List.reverseRecOn with
  | nil => exact False.elim (h [] forest_nil)
  | append_singleton list m ih =>
    by_cases hforest : ∃ ds, g.Forest ds list
    · obtain ⟨ds, hds⟩ := hforest
      exact ⟨list, m, [], ds, rfl, hds, h⟩
    · rw [not_exists] at hforest
      obtain ⟨done, n, rest, ds, rfl, hds, hfails⟩ := ih hforest
      exact ⟨done, n, rest ++ [m], ds, by simp, hds, hfails⟩

/-- How a number fails to prolong a forest: no production has it, or the roots run out behind the
body of its production or clash with it. -/
inductive Fails (g : Grammar V T) (ds : List (LabelledTree V T)) (n : Nat) : ReplayError → Prop
  | unknown (hnone : ∀ p ∈ g.productions, p.number ≠ n) : Fails g ds n (.unknownProduction n)
  | lacks {p : Production V T} (hp : p ∈ g.productions) (hn : p.number = n)
      (hlacks : Lacks (p.body.filterMap Symbol.nonterminal?) (roots ds)) : Fails g ds n .incomplete
  | clashes {p : Production V T} (hp : p ∈ g.productions) (hn : p.number = n)
      (hclashes : Clashes (p.body.filterMap Symbol.nonterminal?) (roots ds)) :
      Fails g ds n (.unexpectedHead n)

theorem Fails.unique {e e' : ReplayError} (h : g.Fails ds n e) (h' : g.Fails ds n e') : e = e' := by
  cases h with
  | unknown hnone =>
    cases h' with
    | unknown _ => rfl
    | lacks hq hm _ => exact False.elim (hnone _ hq hm)
    | clashes hq hm _ => exact False.elim (hnone _ hq hm)
  | lacks hp hn hlacks =>
    cases h' with
    | unknown hnone => exact False.elim (hnone _ hp hn)
    | lacks _ _ _ => rfl
    | clashes hq hm hclashes =>
      cases eq_of_number hp hq (hn.trans hm.symm)
      exact False.elim (hlacks.not_clashes hclashes)
  | clashes hp hn hclashes =>
    cases h' with
    | unknown hnone => exact False.elim (hnone _ hp hn)
    | clashes _ _ _ => rfl
    | lacks hq hm hlacks =>
      cases eq_of_number hp hq (hn.trans hm.symm)
      exact False.elim (hlacks.not_clashes hclashes)

/-- The production with a failing number is short of roots or clashes with them. -/
theorem Fails.lacks_or_clashes {e : ReplayError} (h : g.Fails ds n e) {p : Production V T}
    (hp : p ∈ g.productions) (hn : p.number = n) :
    Lacks (p.body.filterMap Symbol.nonterminal?) (roots ds) ∨
      Clashes (p.body.filterMap Symbol.nonterminal?) (roots ds) := by
  cases h with
  | unknown hnone => exact False.elim (hnone p hp hn)
  | lacks hq hm hlacks =>
    cases eq_of_number hp hq (hn.trans hm.symm)
    exact .inl hlacks
  | clashes hq hm hclashes =>
    cases eq_of_number hp hq (hn.trans hm.symm)
    exact .inr hclashes

end Grammar

variable [DecidableEq V] [DecidableEq T]

/-- The postorder of some trees puts them on the stack, the last on top. -/
theorem Grammar.foldlM_assemble (hds : ∀ d ∈ ds, g.Rooted d) (stack : List (Tree V T)) :
    (ds.flatMap postorder).foldlM (Tree.assemble g) stack =
      .ok ((ds.map erase).reverse ++ stack) := by
  induction ds generalizing stack with
  | nil => rfl
  | cons d ds ih =>
    obtain ⟨⟨v, hgrows⟩, hrest⟩ := List.forall_mem_cons.mp hds
    obtain ⟨p, children, hnode, _⟩ := hgrows.of_nonterminal
    cases hnode
    have hfirst := hgrows.foldlM_postorder stack
    rw [List.flatMap_singleton, stacked, stacked] at hfirst
    rw [List.flatMap_cons, List.foldlM_append, hfirst]
    have hbehind := ih hrest (erase (.node p children) :: stack)
    simpa [bind, Except.bind] using hbehind

theorem Grammar.Forest.foldlM_eq (h : g.Forest ds list) :
    list.foldlM (Tree.assemble g) [] = .ok (ds.map erase).reverse := by
  have hfold := foldlM_assemble h.rooted []
  rwa [h.postorder, List.append_nil] at hfold

/-- Children are gathered for all nonterminals of a reversed body, or the roots at hand run out or
clash with them. -/
theorem Tree.gather_cases (number : Nat) (body : List (Symbol V T)) (taken : List (Tree V T))
    (hds : ∀ d ∈ ds, g.Rooted d) :
    (∃ gathered, gather number body taken (ds.map erase).reverse = .ok gathered) ∨
      (Lacks (body.reverse.filterMap Symbol.nonterminal?) (roots ds) ∧
        gather number body taken (ds.map erase).reverse = .error .incomplete) ∨
      (Clashes (body.reverse.filterMap Symbol.nonterminal?) (roots ds) ∧
        gather number body taken (ds.map erase).reverse = .error (.unexpectedHead number)) := by
  induction body generalizing taken ds with
  | nil => exact .inl ⟨_, rfl⟩
  | cons s body ih =>
    rw [List.reverse_cons, List.filterMap_append]
    cases s with
    | terminal t =>
      have ht : [(.terminal t : Symbol V T)].filterMap Symbol.nonterminal? = [] := rfl
      rw [ht, List.append_nil]
      exact ih (leaf t :: taken) hds
    | nonterminal v =>
      have hv : [(.nonterminal v : Symbol V T)].filterMap Symbol.nonterminal? = [v] := rfl
      rw [hv]
      rcases List.eq_nil_or_concat ds with rfl | ⟨front, d, rfl⟩
      · exact .inr (.inl ⟨lacks_nil _ v, rfl⟩)
      · rw [List.concat_eq_append] at hds ⊢
        obtain ⟨hfront, hd⟩ := List.forall_mem_append.mp hds
        obtain ⟨p, below, rfl, _, _⟩ := (hd d (List.mem_singleton_self d)).exists_node
        have hroots : roots (front ++ [.node p below]) = roots front ++ [p.head] := by
          simp [roots, root?]
        rw [hroots, List.map_append, List.reverse_append, List.map_singleton,
          List.reverse_singleton, List.singleton_append, gather]
        by_cases hroot : v = p.head
        · subst hroot
          rw [if_pos (by rw [erase]; rfl)]
          rcases ih (erase (.node p below) :: taken) hfront with
            hok | ⟨hlacks, herror⟩ | ⟨hclashes, herror⟩
          · exact .inl hok
          · exact .inr (.inl ⟨hlacks.concat _, herror⟩)
          · exact .inr (.inr ⟨hclashes.concat _, herror⟩)
        · have hsymbol : (erase (.node p below)).symbol ≠ .nonterminal v := by
            rw [erase]
            simpa [Tree.symbol] using fun h => hroot h.symm
          rw [if_neg hsymbol]
          exact .inr (.inr ⟨clashes_concat _ _ hroot, rfl⟩)

namespace Grammar

/-- A number at which a list ceases to be the postorder of a forest cannot be replayed. -/
theorem Forest.exists_fails (h : g.Forest ds done) (hends : ∀ es, ¬ g.Forest es (done ++ [n])) :
    ∃ e, g.Fails ds n e ∧ Tree.assemble g (ds.map erase).reverse n = .error e := by
  cases hfound : g.production? n with
  | none =>
    refine ⟨_, .unknown (production?_eq_none.mp hfound), ?_⟩
    rw [Tree.assemble, hfound]
  | some p =>
    obtain ⟨hp, rfl⟩ := production?_eq_some.mp hfound
    have hcases := Tree.gather_cases p.number p.body.reverse [] h.rooted
    rw [List.reverse_reverse] at hcases
    rcases hcases with ⟨gathered, hok⟩ | ⟨hlacks, herror⟩ | ⟨hclashes, herror⟩
    · -- A tree that can be joined would prolong the forest.
      have hfold : (done ++ [p.number]).foldlM (Tree.assemble g) [] =
          .ok (.node (.nonterminal p.head) gathered.1 :: gathered.2) := by
        rw [List.foldlM_append, h.foldlM_eq]
        simp [Tree.assemble, hfound, hok, bind, Except.bind, pure, Except.pure]
      obtain ⟨es, hes, hpost, _⟩ := Tree.foldlM_assemble_eq_ok hfold
      exact False.elim (hends es ⟨hes, hpost⟩)
    · refine ⟨_, .lacks hp rfl hlacks, ?_⟩
      rw [Tree.assemble, hfound]
      simp [herror, bind, Except.bind]
    · refine ⟨_, .clashes hp rfl hclashes, ?_⟩
      rw [Tree.assemble, hfound]
      simp [herror, bind, Except.bind]

variable {start : V}

/-- What cannot be replayed ends the replay, whatever follows it. -/
theorem Forest.ofRightParse_eq_error (hstart : g.start = some start) (h : g.Forest ds done)
    {e : ReplayError} (hn : Tree.assemble g (ds.map erase).reverse n = .error e) (rest : List Nat) :
    Tree.ofRightParse g (done ++ n :: rest) = .error e := by
  rw [Tree.ofRightParse, hstart]
  simp only [List.foldlM_append, h.foldlM_eq, bind, Except.bind, List.foldlM_cons, hn]

theorem Forest.ofRightParse_eq_incomplete (hstart : g.start = some start) (h : g.Forest ds list)
    (hlength : ds.length ≠ 1) : Tree.ofRightParse g list = .error .incomplete := by
  rw [Tree.ofRightParse, hstart, h.foldlM_eq]
  simp only [bind, Except.bind]
  split
  · rename_i hsingle
    have hone := congrArg List.length hsingle
    simp at hone
    exact False.elim (hlength hone)
  · rfl

theorem Forest.ofRightParse_eq_wrongRoot (hstart : g.start = some start) (h : g.Forest [d] list)
    (hroot : d.root? ≠ some start) : Tree.ofRightParse g list = .error .wrongRoot := by
  obtain ⟨p, children, rfl, _, _⟩ := (h.rooted d (List.mem_singleton_self d)).exists_node
  have hsymbol : (erase (.node p children)).symbol ≠ .nonterminal start := by
    rw [erase]
    simpa [Tree.symbol, root?] using hroot
  rw [Tree.ofRightParse, hstart, h.foldlM_eq]
  simp [bind, Except.bind, hsymbol]

end Grammar

/-- The forest that a list builds settles how its replay as a right parse fails. The postorder of
any number of trees but one leaves the replay incomplete, and that of one tree needs the start at its
root. Any other list has a first number at which it ceases to be the postorder of a forest, and what
follows it is not looked at. The replay fails there as no production has the number; or as the roots
of the trees built so far, compared from the right with the nonterminals of the body, run out or
differ from them, whichever comes first. -/
theorem Tree.ofRightParse_classified {start : V} (hstart : g.start = some start) (list : List Nat) :
    (∀ ds, g.Forest ds list →
      (ds.length ≠ 1 → ofRightParse g list = .error .incomplete) ∧
      ∀ d, ds = [d] → d.root? ≠ some start → ofRightParse g list = .error .wrongRoot) ∧
    ((∀ ds, ¬ g.Forest ds list) → ∃ done n rest ds, list = done ++ n :: rest ∧
      (∀ front, front <+: done → ∃ es, g.Forest es front) ∧ g.Forest ds done ∧
      ∀ es, ¬ g.Forest es (done ++ [n])) ∧
    ∀ done n rest ds, list = done ++ n :: rest → g.Forest ds done →
      (∀ es, ¬ g.Forest es (done ++ [n])) →
      ((∀ p ∈ g.productions, p.number ≠ n) →
        ofRightParse g list = .error (.unknownProduction n)) ∧
      (∀ p ∈ g.productions, p.number = n →
        (Lacks (p.body.filterMap Symbol.nonterminal?) (roots ds) →
          ofRightParse g list = .error .incomplete) ∧
        (Clashes (p.body.filterMap Symbol.nonterminal?) (roots ds) →
          ofRightParse g list = .error (.unexpectedHead n)) ∧
        (Lacks (p.body.filterMap Symbol.nonterminal?) (roots ds) ∨
          Clashes (p.body.filterMap Symbol.nonterminal?) (roots ds))) ∧
      ∀ rest', ofRightParse g (done ++ n :: rest') = ofRightParse g list := by
  refine ⟨?_, ?_, ?_⟩
  · intro ds hds
    refine ⟨hds.ofRightParse_eq_incomplete hstart, ?_⟩
    rintro d rfl hroot
    exact hds.ofRightParse_eq_wrongRoot hstart hroot
  · intro h
    obtain ⟨done, n, rest, ds, hlist, hds, hfails⟩ := Grammar.exists_first_failure h
    exact ⟨done, n, rest, ds, hlist, fun front hfront => hds.exists_of_prefix hfront, hds, hfails⟩
  · rintro done n rest ds rfl hds hfails
    obtain ⟨e, hfail, herror⟩ := hds.exists_fails hfails
    have hends := hds.ofRightParse_eq_error hstart herror
    refine ⟨?_, ?_, fun rest' => (hends rest').trans (hends rest).symm⟩
    · intro hnone
      rw [hends, hfail.unique (.unknown hnone)]
    · intro p hp hn
      refine ⟨?_, ?_, hfail.lacks_or_clashes hp hn⟩
      · intro hlacks
        rw [hends, hfail.unique (.lacks hp hn hlacks)]
      · intro hclashes
        rw [hends, hfail.unique (.clashes hp hn hclashes)]

/-- Two empty trees are not one, one of them has the wrong root, and behind the tree that joins them
there is nothing left to be joined. -/
theorem Tree.ofRightParse_classified_twins :
    twins.start = some 'S' ∧
      (∃ ds, twins.Forest ds [4, 4] ∧ ds.length ≠ 1 ∧
        ofRightParse twins [4, 4] = .error .incomplete) ∧
      (∃ d, twins.Forest [d] [4] ∧ d.root? ≠ some 'S' ∧
        ofRightParse twins [4] = .error .wrongRoot) ∧
      ∃ ds, twins.Forest ds [4, 4, 1] ∧ (∀ es, ¬ twins.Forest es ([4, 4, 1] ++ [1])) ∧
        Clashes ['E', 'E'] (roots ds) ∧
          ∀ rest, ofRightParse twins ([4, 4, 1] ++ 1 :: rest) = .error (.unexpectedHead 1) := by
  have hstart : twins.start = some 'S' := rfl
  have hempty : ⟨⟨'E', []⟩, 4⟩ ∈ twins.productions := List.mem_of_getElem? (i := 3) rfl
  have hpair : ⟨⟨'S', [.nonterminal 'E', .nonterminal 'E']⟩, 1⟩ ∈ twins.productions :=
    List.mem_of_getElem? (i := 0) rfl
  have hone : twins.Forest [.node ⟨⟨'E', []⟩, 4⟩ []] [4] :=
    ⟨List.forall_mem_singleton.mpr (Grammar.rooted_node hempty .nil), by simp [postorder]⟩
  have htwo : twins.Forest [.node ⟨⟨'E', []⟩, 4⟩ [], .node ⟨⟨'E', []⟩, 4⟩ []] [4, 4] :=
    ⟨by simpa using Grammar.rooted_node hempty .nil, by simp [postorder]⟩
  have hjoined : twins.Forest [.node ⟨⟨'S', [.nonterminal 'E', .nonterminal 'E']⟩, 1⟩
      [.node ⟨⟨'E', []⟩, 4⟩ [], .node ⟨⟨'E', []⟩, 4⟩ []]] [4, 4, 1] := by
    refine ⟨List.forall_mem_singleton.mpr (Grammar.rooted_node hpair ?_), by simp [postorder]⟩
    exact .node hempty .nil (.node hempty .nil .nil)
  have hends : ∀ es, ¬ twins.Forest es ([4, 4, 1] ++ [1]) := by
    intro es hes
    have hfold : ([4, 4, 1] ++ [1]).foldlM (assemble twins) [] = .error (.unexpectedHead 1) := rfl
    cases hfold.symm.trans hes.foldlM_eq
  have hclashes : Clashes ['E', 'E'] ['S'] := clashes_concat ['E'] [] (by simp)
  have hroot : (LabelledTree.node ⟨⟨'E', []⟩, 4⟩ [] : LabelledTree Char Char).root? ≠ some 'S' := by
    simp [root?]
  refine ⟨hstart, ⟨_, htwo, by simp, ?_⟩, ⟨_, hone, hroot, ?_⟩,
    ⟨_, hjoined, hends, hclashes, fun rest => ?_⟩⟩
  · obtain ⟨hforest, _⟩ := ofRightParse_classified hstart [4, 4]
    exact (hforest _ htwo).1 (by simp)
  · obtain ⟨hforest, _⟩ := ofRightParse_classified hstart [4]
    exact (hforest _ hone).2 _ rfl hroot
  · obtain ⟨_, _, hfails⟩ := ofRightParse_classified hstart ([4, 4, 1] ++ 1 :: rest)
    obtain ⟨_, hknown, _⟩ := hfails _ _ rest _ rfl hjoined hends
    obtain ⟨_, hclash, _⟩ := hknown _ hpair rfl
    exact hclash hclashes

end ContextFree
