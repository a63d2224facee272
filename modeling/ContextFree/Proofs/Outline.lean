import ContextFree.Tree.Basic
import Mathlib.Data.List.Forall2

namespace ContextFree

/-- A name that stands out from the layout of a shown tree. -/
def Legible (name : String) : Prop :=
  '\n' ∉ name.toList ∧ name.toList.head? ≠ some ' '

instance (name : String) : Decidable (Legible name) :=
  inferInstanceAs (Decidable (_ ∧ _))

section Lines

theorem eq_of_replicate_append {α : Type} {a : α} {m n : Nat} {rest rest' : List α}
    (hrest : rest.head? ≠ some a) (hrest' : rest'.head? ≠ some a)
    (h : List.replicate m a ++ rest = List.replicate n a ++ rest') : m = n ∧ rest = rest' := by
  induction m generalizing n with
  | zero =>
    cases n with
    | zero => exact ⟨rfl, h⟩
    | succ n =>
      rw [List.replicate_zero, List.nil_append] at h
      rw [h] at hrest
      exact False.elim (hrest rfl)
  | succ m ih =>
    cases n with
    | zero =>
      rw [List.replicate_zero, List.nil_append] at h
      rw [← h] at hrest'
      exact False.elim (hrest' rfl)
    | succ n =>
      obtain ⟨rfl, hmore⟩ := ih (List.cons.inj h).2
      exact ⟨rfl, hmore⟩

theorem eq_of_append_cons {α : Type} {a : α} {front front' rest rest' : List α} (hfront : a ∉ front)
    (hfront' : a ∉ front') (h : front ++ a :: rest = front' ++ a :: rest') :
    front = front' ∧ rest = rest' := by
  induction front generalizing front' with
  | nil =>
    cases front' with
    | nil => exact ⟨rfl, (List.cons.inj h).2⟩
    | cons b front' =>
      rw [(List.cons.inj h).1] at hfront'
      exact False.elim (hfront' List.mem_cons_self)
  | cons b front ih =>
    cases front' with
    | nil =>
      rw [← (List.cons.inj h).1] at hfront
      exact False.elim (hfront List.mem_cons_self)
    | cons c front' =>
      obtain ⟨rfl, hmore⟩ := List.cons.inj h
      obtain ⟨rfl, hrest⟩ := ih (fun hm => hfront (List.mem_cons_of_mem b hm))
        (fun hm => hfront' (List.mem_cons_of_mem b hm)) hmore
      exact ⟨rfl, hrest⟩

theorem toList_pushn (c : Char) (n : Nat) : ("".pushn c n).toList = List.replicate n c := by
  induction n with
  | zero => rfl
  | succ n ih =>
    rw [List.replicate_succ', ← ih]
    exact String.toList_push c

/-- The characters of a line that shows a name at a depth. -/
def lineChars (node : Nat × String) : List Char :=
  List.replicate (2 * node.1) ' ' ++ (node.2.toList ++ ['\n'])

/-- The first line of a text gives the depth and the name that it shows. -/
theorem eq_of_lineChars_append {node node' : Nat × String} {rest rest' : List Char}
    (hname : Legible node.2) (hname' : Legible node'.2)
    (h : lineChars node ++ rest = lineChars node' ++ rest') : node = node' ∧ rest = rest' := by
  have hhead : ∀ {name : String} {rest : List Char}, Legible name →
      (name.toList ++ '\n' :: rest).head? ≠ some ' ' := by
    intro name rest hname
    cases hchars : name.toList with
    | nil => simp
    | cons c chars => simpa [hchars] using hname.2
  simp only [lineChars, List.append_assoc, List.singleton_append] at h
  obtain ⟨hindent, hline⟩ := eq_of_replicate_append (hhead hname) (hhead hname') h
  obtain ⟨hchars, hrest⟩ := eq_of_append_cons hname.1 hname'.1 hline
  exact ⟨Prod.ext (by omega) (String.toList_inj.mp hchars), hrest⟩

/-- The lines of a text can be read back. -/
theorem eq_of_flatMap_lineChars {nodes nodes' : List (Nat × String)}
    (hnames : ∀ node ∈ nodes, Legible node.2) (hnames' : ∀ node ∈ nodes', Legible node.2)
    (h : nodes.flatMap lineChars = nodes'.flatMap lineChars) : nodes = nodes' := by
  induction nodes generalizing nodes' with
  | nil =>
    cases nodes' with
    | nil => rfl
    | cons node nodes' => simp [lineChars] at h
  | cons node nodes ih =>
    cases nodes' with
    | nil => simp [lineChars] at h
    | cons node' nodes' =>
      obtain ⟨hname, hmore⟩ := List.forall_mem_cons.mp hnames
      obtain ⟨hname', hmore'⟩ := List.forall_mem_cons.mp hnames'
      obtain ⟨rfl, hrest⟩ := eq_of_lineChars_append hname hname' h
      rw [ih hmore hmore' hrest]

end Lines

namespace Tree

variable {V V' T T' : Type} [Name V] [Name T] [Name V'] [Name T']

/-- All names in a tree stand out from the layout. -/
def AllLegible (t : Tree V T) : Prop :=
  ∀ node ∈ t.outline 0, Legible node.2.text

instance (t : Tree V T) : Decidable t.AllLegible :=
  inferInstanceAs (Decidable (∀ node ∈ t.outline 0, Legible node.2.text))

/-- Two trees have the same shape and show the same name at every node. The text of a tree does not
tell terminals from nonterminals. -/
inductive LooksLike : Tree V T → Tree V' T' → Prop
  | node {s : Symbol V T} {s' : Symbol V' T'} {ts : List (Tree V T)} {us : List (Tree V' T')}
      (hname : s.text = s'.text) (hchildren : List.Forall₂ LooksLike ts us) :
      LooksLike (node s ts) (node s' us)

/-- A node of an outline as it is shown. -/
def shown (node : Nat × Symbol V T) : Nat × String :=
  (node.1, node.2.text)

section Outline

variable {depth : Nat} {rest : List (Nat × String)}

/-- Behind the trees of a forest an outline goes on at a lower depth, if it goes on at all. -/
def EndsAbove (depth : Nat) (rest : List (Nat × String)) : Prop :=
  ∀ node ∈ rest.head?, node.1 < depth

theorem EndsAbove.not_cons {name : String} {more : List (Nat × String)} :
    ¬ EndsAbove depth ((depth, name) :: more) := by
  intro h
  exact Nat.lt_irrefl depth (h (depth, name) rfl)

/-- Behind the children of a tree an outline goes on with the trees next to it. -/
theorem EndsAbove.outlineAll (h : EndsAbove depth rest) (ts : List (Tree V T)) :
    EndsAbove (depth + 1) ((outlineAll depth ts).map shown ++ rest) := by
  cases ts with
  | nil => exact fun node hnode => Nat.lt_succ_of_lt (h node hnode)
  | cons t ts =>
    obtain ⟨s, children⟩ := t
    intro node hnode
    cases hnode
    exact Nat.lt_succ_self depth

mutual

/-- An outline gives the shape of its tree and the names in it, whatever follows the tree. -/
theorem looksLike_of_outline (t : Tree V T) (u : Tree V' T') (depth : Nat)
    (rest rest' : List (Nat × String)) (hrest : EndsAbove (depth + 1) rest)
    (hrest' : EndsAbove (depth + 1) rest')
    (h : (outline depth t).map shown ++ rest = (outline depth u).map shown ++ rest') :
    LooksLike t u ∧ rest = rest' := by
  match t, u with
  | node s ts, node s' us =>
    obtain ⟨hnode, hchildren⟩ := List.cons.inj h
    obtain ⟨hlike, heq⟩ :=
      looksLike_of_outlineAll ts us (depth + 1) rest rest' hrest hrest' hchildren
    exact ⟨.node (congrArg Prod.snd hnode) hlike, heq⟩

theorem looksLike_of_outlineAll (ts : List (Tree V T)) (us : List (Tree V' T')) (depth : Nat)
    (rest rest' : List (Nat × String)) (hrest : EndsAbove depth rest)
    (hrest' : EndsAbove depth rest')
    (h : (outlineAll depth ts).map shown ++ rest = (outlineAll depth us).map shown ++ rest') :
    List.Forall₂ LooksLike ts us ∧ rest = rest' := by
  match ts, us with
  | [], [] => exact ⟨.nil, h⟩
  | [], node s us :: vs =>
    have hmore : rest = (depth, s.text) :: _ := h
    rw [hmore] at hrest
    exact False.elim hrest.not_cons
  | node s ts :: vs, [] =>
    have hmore : _ = rest' := h
    rw [← hmore] at hrest'
    exact False.elim (EndsAbove.not_cons hrest')
  | t :: ts, u :: us =>
    rw [outlineAll, outlineAll, List.map_append, List.map_append, List.append_assoc,
      List.append_assoc] at h
    obtain ⟨hfirst, hmore⟩ :=
      looksLike_of_outline t u depth _ _ (hrest.outlineAll ts) (hrest'.outlineAll us) h
    obtain ⟨hlike, heq⟩ := looksLike_of_outlineAll ts us depth rest rest' hrest hrest' hmore
    exact ⟨.cons hfirst hlike, heq⟩

end

mutual

theorem map_shown_outline {t : Tree V T} {u : Tree V' T'} (h : LooksLike t u) (depth : Nat) :
    (outline depth t).map shown = (outline depth u).map shown := by
  match t, u, h with
  | node s _, node s' _, .node hname hchildren =>
    have hnode : shown (depth, s) = shown (depth, s') := Prod.ext rfl hname
    rw [outline, outline, List.map_cons, List.map_cons, hnode,
      map_shown_outlineAll hchildren (depth + 1)]

theorem map_shown_outlineAll {ts : List (Tree V T)} {us : List (Tree V' T')}
    (h : List.Forall₂ LooksLike ts us) (depth : Nat) :
    (outlineAll depth ts).map shown = (outlineAll depth us).map shown := by
  match h with
  | .nil => rfl
  | .cons hfirst hmore =>
    rw [outlineAll, outlineAll, List.map_append, List.map_append, map_shown_outline hfirst depth,
      map_shown_outlineAll hmore depth]

end

end Outline

variable {t : Tree V T} {u : Tree V' T'}

theorem toList_text (t : Tree V T) :
    t.text.toList = ((t.outline 0).map shown).flatMap lineChars := by
  rw [text, String.toList_join, List.flatMap_map, List.flatMap_map]
  congr 1
  funext node
  simp [line, lineChars, shown, toList_pushn]

theorem AllLegible.map_shown (h : t.AllLegible) :
    ∀ node ∈ (t.outline 0).map shown, Legible node.2 :=
  List.forall_mem_map.mpr h

/-- Trees whose names stand out from the layout have the same text exactly if they have the same
shape and show the same name at every node. -/
theorem text_eq_iff_looksLike (ht : t.AllLegible) (hu : u.AllLegible) :
    t.text = u.text ↔ LooksLike t u := by
  constructor
  · intro h
    have hlines := congrArg String.toList h
    rw [toList_text, toList_text] at hlines
    have hnodes := eq_of_flatMap_lineChars ht.map_shown hu.map_shown hlines
    have hnone : EndsAbove 1 [] := fun node hnode => by cases hnode
    exact (looksLike_of_outline t u 0 [] [] hnone hnone (by rw [hnodes])).1
  · intro h
    rw [← String.toList_inj, toList_text, toList_text, map_shown_outline h 0]

/-- A start with an empty name below it, which is that of a terminal with a child of its own, and
with a nonterminal that has no children. -/
def grafted : Tree String String :=
  node (.nonterminal "S") [node (.terminal "") [leaf "a"], node (.nonterminal "A") []]

/-- The same tree with terminals and nonterminals exchanged. -/
def exchanged : Tree String String :=
  node (.terminal "S") [node (.nonterminal "") [node (.nonterminal "a") []], leaf "A"]

/-- The same nodes with the last one a level deeper. -/
def deepened : Tree String String :=
  node (.nonterminal "S") [node (.terminal "") [leaf "a", node (.nonterminal "A") []]]

/-- The grafted tree cannot be told from the exchanged one, but from the deepened one. -/
theorem text_eq_iff_looksLike_grafted :
    grafted.AllLegible ∧ exchanged.AllLegible ∧ deepened.AllLegible ∧
      grafted.text = "S\n  \n    a\n  A\n" ∧ LooksLike grafted exchanged ∧
      ¬ LooksLike grafted deepened := by
  have hgrafted : grafted.AllLegible := by decide
  have hexchanged : exchanged.AllLegible := by decide
  have hdeepened : deepened.AllLegible := by decide
  have htext : grafted.text = "S\n  \n    a\n  A\n" := by decide
  have hsame : exchanged.text = grafted.text := by decide
  have hother : deepened.text ≠ grafted.text := by decide
  refine ⟨hgrafted, hexchanged, hdeepened, htext, ?_, ?_⟩
  · exact (text_eq_iff_looksLike hgrafted hexchanged).mp hsame.symm
  · exact fun h => hother ((text_eq_iff_looksLike hgrafted hdeepened).mpr h).symm

-- A line end in a name can stand for a child.
example : (node (.terminal "a\n  b") [] : Tree String String).text =
    (node (.terminal "a") [leaf "b"] : Tree String String).text := by
  cbv

end Tree

end ContextFree
