import ContextFree.Grammar.Builder
import ContextFree.Grammar.Nullable
import Mathlib.Data.List.Basic

namespace ContextFree

open Function (Injective)

namespace Grouping

variable {κ κ' α α' : Type} [DecidableEq κ] [DecidableEq κ'] {f : κ → κ'}

theorem find_ofList_map (hf : Injective f) (a : α → α') (entries : List (κ × α)) (k : κ) :
    (ofList (entries.map (Prod.map f a))).find (f k) = ((ofList entries).find k).map a := by
  rw [find_ofList, find_ofList, List.filter_map, List.map_map, List.map_map]
  have hkey : ((fun e : κ' × α' => decide (e.1 = f k)) ∘ Prod.map f a) =
      fun e => decide (e.1 = k) := by
    funext e
    simp [hf.eq_iff]
  rw [hkey]
  rfl

theorem firsts_map (hf : Injective f) (ks : List κ) : firsts (ks.map f) = (firsts ks).map f := by
  induction ks with
  | nil => rfl
  | cons k ks ih =>
    rw [List.map_cons, firsts, firsts, ih, List.filter_map, List.map_cons]
    have hkey : ((fun l : κ' => decide (l ≠ f k)) ∘ f) = fun l => decide (l ≠ k) := by
      funext l
      simp [hf.eq_iff]
    rw [hkey]

/-- A key and its values can be set apart from the rest. -/
theorem size_split (g : Grouping κ α) (k : κ) :
    (g.find k).length + ((g.groups.filter fun e => e.1 ≠ k).flatMap Prod.snd).length = g.size := by
  unfold find size
  have hnodup := g.nodup
  generalize g.groups = groups at hnodup
  induction groups with
  | nil => rfl
  | cons e rest ih =>
    rw [List.map_cons, List.nodup_cons] at hnodup
    have hrest := ih hnodup.2
    by_cases h : e.1 = k
    · -- The keys are distinct, so the rest holds no other entry of this key.
      have hkeep : (rest.filter fun e => e.1 ≠ k) = rest := by
        rw [List.filter_eq_self]
        intro e' he'
        have hne : e'.1 ≠ k := fun heq => hnodup.1 (h ▸ heq ▸ List.mem_map_of_mem he')
        simp [hne]
      rw [List.find?_cons_of_pos (by simp [h]), List.filter_cons_of_neg (by simp [h]), hkeep]
      simp
    · rw [List.find?_cons_of_neg (by simp [h]), List.filter_cons_of_pos (by simp [h])]
      simp only [List.flatMap_cons, List.length_append]
      omega

/-- No value is lost when values are filed. -/
theorem size_ofList (entries : List (κ × α)) : (ofList entries).size = entries.length := by
  induction entries with
  | nil => rfl
  | cons e rest ih =>
    have hsplit := size_split (ofList rest) e.1
    have hcons : (ofList (e :: rest)).size = ((ofList rest).find e.1).length + 1 +
        (((ofList rest).groups.filter fun d => d.1 ≠ e.1).flatMap Prod.snd).length := by
      simp only [ofList, cons, size, List.flatMap_cons, List.length_append, List.length_cons]
    rw [hcons, List.length_cons, ← ih]
    omega

end Grouping

variable {V V' T T' : Type} (f : V → V') (e : T → T')

def Symbol.map : Symbol V T → Symbol V' T'
  | terminal t => terminal (e t)
  | nonterminal v => nonterminal (f v)

def Rule.map (r : Rule V T) : Rule V' T' :=
  ⟨f r.head, r.body.map (Symbol.map f e)⟩

def Production.map (p : Production V T) : Production V' T' :=
  ⟨p.toRule.map f e, p.number⟩

/-- The grammar in which the productions are the renamed ones, in the same order. -/
def Grammar.map (g : Grammar V T) : Grammar V' T' where
  start := g.start.map f
  productions := g.productions.map (Production.map f e)
  numbered := by
    intro i p' h
    rw [List.getElem?_map] at h
    obtain ⟨p, hp, rfl⟩ := Option.map_eq_some_iff.mp h
    exact g.numbered i p hp

def Builder.map (b : Builder V T) : Builder V' T' :=
  ⟨b.start.map f, b.rules.map (Rule.map f e)⟩

/-- Declaring renamed rules makes the renamed grammar. -/
theorem Builder.build_map (b : Builder V T) : (b.map f e).build = b.build.map f e := by
  simp only [build, Grammar.ofRules, map, Grammar.map, Grammar.mk.injEq]
  constructor
  · cases b.start <;> cases b.rules <;> rfl
  · apply List.ext_getElem?
    intro i
    simp only [List.getElem?_mapIdx, List.getElem?_map, Option.map_map]
    rfl

variable {f e}

theorem Symbol.map_injective (hf : Injective f) (he : Injective e) :
    Injective (Symbol.map f e) := by
  intro s s' h
  cases s <;> cases s' <;> simp only [map, terminal.injEq, nonterminal.injEq, reduceCtorEq] at h
  · rw [he h]
  · rw [hf h]

theorem Rule.unit?_map (r : Rule V T) : (r.map f e).unit? = r.unit?.map f := by
  obtain ⟨head, body⟩ := r
  match body with
  | [] => rfl
  | .terminal _ :: _ => rfl
  | [.nonterminal _] => rfl
  | .nonterminal _ :: _ :: _ => rfl

namespace Grammar

variable {g : Grammar V T}

theorem production?_map (n : Nat) :
    (g.map f e).production? n = (g.production? n).map (Production.map f e) := by
  cases n with
  | zero => rfl
  | succ n => simp [production?, map]

theorem isTerminal_map [DecidableEq T] [DecidableEq T'] (he : Injective e) (t : T) :
    (g.map f e).isTerminal (e t) = g.isTerminal t := by
  rw [Bool.eq_iff_iff, isTerminal_iff, isTerminal_iff]
  constructor
  · rintro ⟨_, hp', hbody⟩
    obtain ⟨p, hp, rfl⟩ := List.mem_map.mp hp'
    obtain ⟨s, hs, hst⟩ := List.mem_map.mp hbody
    cases s with
    | terminal t' =>
      rw [Symbol.map, Symbol.terminal.injEq] at hst
      exact ⟨p, hp, he hst ▸ hs⟩
    | nonterminal v => cases hst
  · rintro ⟨p, hp, hbody⟩
    exact ⟨p.map f e, List.mem_map_of_mem hp, List.mem_map_of_mem hbody⟩

variable [DecidableEq V] [DecidableEq V']

theorem find_byHead_map (hf : Injective f) (v : V) :
    (g.map f e).byHead.find (f v) = (g.byHead.find v).map (Production.map f e) := by
  rw [byHead, byHead, ← Grouping.find_ofList_map hf, map, List.map_map, List.map_map]
  rfl

theorem heads_map (hf : Injective f) : (g.map f e).heads = g.heads.map f := by
  rw [heads_eq, heads_eq, ← Grouping.firsts_map hf, map, List.map_map, List.map_map]
  rfl

theorem isDefined_map (hf : Injective f) (v : V) :
    (g.map f e).isDefined (f v) = g.isDefined v := by
  simp only [isDefined, heads_map hf, List.mem_map_of_injective hf]

end Grammar

section Nullable

variable [DecidableEq V] [DecidableEq V']

theorem Symbol.vanishes_map (hf : Injective f) (known : List V) (s : Symbol V T) :
    (s.map f e).vanishes (known.map f) = s.vanishes known := by
  cases s with
  | terminal t => rfl
  | nonterminal v => simp only [map, vanishes, List.mem_map_of_injective hf]

theorem Rule.learn_map (hf : Injective f) (known : List V) (r : Rule V T) :
    (r.map f e).learn (known.map f) = (r.learn known).map f := by
  have hbody : (r.map f e).body.all (Symbol.vanishes (known.map f)) =
      r.body.all (Symbol.vanishes known) := by
    rw [map, List.all_map]
    congr 1
    funext s
    exact Symbol.vanishes_map hf known s
  simp only [learn, hbody]
  simp only [map, List.mem_map_of_injective hf]
  split
  · rfl
  · split
    · rw [List.map_append, List.map_singleton]
    · rfl

namespace Grammar

variable {g : Grammar V T}

theorem learnAll_map (hf : Injective f) (known : List V) :
    (g.map f e).learnAll (known.map f) = (g.learnAll known).map f := by
  unfold learnAll
  rw [map, List.foldl_map]
  generalize g.productions = productions
  induction productions generalizing known with
  | nil => rfl
  | cons p rest ih =>
    rw [List.foldl_cons, List.foldl_cons, ← ih, ← Rule.learn_map hf known]
    rfl

theorem passes_map (hf : Injective f) (n : Nat) (known : List V) :
    (g.map f e).passes n (known.map f) = (g.passes n known).map f := by
  induction n generalizing known with
  | zero => rfl
  | succ n ih =>
    simp only [passes, learnAll_map hf, List.length_map, ih]
    split <;> rfl

theorem nullable_map (hf : Injective f) : (g.map f e).nullable = g.nullable.map f := by
  have hpasses := passes_map (g := g) (e := e) hf g.productions.length []
  rw [nullable, nullable, ← hpasses, map, List.length_map]
  rfl

end Grammar

end Nullable

end ContextFree
