import ContextFree.Grammar.Builder
import Mathlib.Data.List.Nodup

namespace ContextFree

/-- The distinct members of a list come in the order in which the list first names them. -/
theorem Grouping.pairwise_idxOf_firsts {κ : Type} [DecidableEq κ] (ks : List κ) :
    (firsts ks).Pairwise fun k l => ks.idxOf k < ks.idxOf l := by
  induction ks with
  | nil => exact .nil
  | cons k ks ih =>
    rw [firsts, List.pairwise_cons]
    have hne : ∀ l ∈ (firsts ks).filter (· ≠ k), k ≠ l := by
      intro l hl
      have hl := (List.mem_filter.mp hl).2
      exact Ne.symm (of_decide_eq_true hl)
    constructor
    · intro l hl
      rw [List.idxOf_cons_self, List.idxOf_cons_ne _ (hne l hl)]
      exact Nat.succ_pos _
    · refine (ih.filter _).imp_of_mem fun hl hl' hlt => ?_
      rw [List.idxOf_cons_ne _ (hne _ hl), List.idxOf_cons_ne _ (hne _ hl')]
      exact Nat.succ_lt_succ hlt

variable {V T : Type}

namespace Grammar

section Heads

variable [DecidableEq V] (g : Grammar V T)

theorem isDefined_iff_alternatives (v : V) : g.isDefined v ↔ g.alternatives v ≠ [] := by
  rw [isDefined, decide_eq_true_iff]
  exact Grouping.mem_keys_iff

omit [DecidableEq V] in
theorem map_number :
    (g.productions.map fun p => p.number) = List.range' 1 g.productions.length := by
  apply List.ext_getElem (by simp)
  intro i hi _
  rw [List.length_map] at hi
  rw [List.getElem_map, List.getElem_range', g.numbered i _ (List.getElem?_eq_getElem hi)]
  omega

/-- Each number belongs to the alternatives of just one head. -/
theorem perm_alternatives :
    (g.heads.flatMap fun v => (g.alternatives v).map fun p => p.number).Perm
      (List.range' 1 g.productions.length) := by
  rw [← map_number, List.perm_ext_iff_of_nodup]
  · intro n
    simp only [List.mem_flatMap, List.mem_map, mem_alternatives]
    constructor
    · rintro ⟨v, _, p, ⟨hp, _⟩, rfl⟩
      exact ⟨p, hp, rfl⟩
    · rintro ⟨p, hp, rfl⟩
      exact ⟨p.head, mem_heads.mpr ⟨p, hp, rfl⟩, p, ⟨hp, rfl⟩, rfl⟩
  · rw [List.nodup_flatMap]
    constructor
    · intro v _
      exact List.pairwise_map.mpr ((g.pairwise_alternatives v).imp Nat.ne_of_lt)
    · refine g.byHead.nodup.imp fun hne => ?_
      intro n hv hw
      obtain ⟨p, hp, rfl⟩ := List.mem_map.mp hv
      obtain ⟨q, hq, hnumber⟩ := List.mem_map.mp hw
      obtain ⟨hpin, hphead⟩ := mem_alternatives.mp hp
      obtain ⟨hqin, hqhead⟩ := mem_alternatives.mp hq
      have hfound := production?_eq_some.mpr ⟨hpin, rfl⟩
      cases hfound.symm.trans (production?_eq_some.mpr ⟨hqin, hnumber⟩)
      exact hne (hphead.symm.trans hqhead)
  · rw [map_number]
    exact List.nodup_range'

end Heads

end Grammar

/-- A call that declares the start, a rule, or any number of rules with one head. -/
inductive Declaration (V T : Type) where
  | start (v : V)
  | rule (head : V) (body : List (Symbol V T))
  | rules (head : V) (bodies : List (List (Symbol V T)))

namespace Declaration

def start? : Declaration V T → Option V
  | start v => some v
  | rule _ _ => none
  | rules _ _ => none

/-- The rules that a call adds. -/
def added : Declaration V T → List (Rule V T)
  | start _ => []
  | rule head body => [⟨head, body⟩]
  | rules head bodies => bodies.map fun body => ⟨head, body⟩

end Declaration

/-- The rules that calls add one after the other. -/
def declaredRules (calls : List (Declaration V T)) : List (Rule V T) :=
  calls.flatMap Declaration.added

namespace Builder

def declare (b : Builder V T) : Declaration V T → Builder V T
  | .start v => b.setStart v
  | .rule head body => b.addRule head body
  | .rules head bodies => b.addRules head bodies

def declareAll (b : Builder V T) (calls : List (Declaration V T)) : Builder V T :=
  calls.foldl declare b

theorem rules_declareAll (b : Builder V T) (calls : List (Declaration V T)) :
    (b.declareAll calls).rules = b.rules ++ declaredRules calls := by
  unfold declareAll declaredRules
  induction calls generalizing b with
  | nil => simp
  | cons call calls ih =>
    rw [List.foldl_cons, ih, List.flatMap_cons, ← List.append_assoc]
    congr 1
    cases call with
    | start v => simp [declare, setStart, Declaration.added]
    | rule head body => rfl
    | rules head bodies => exact rules_addRules b head bodies

theorem start_addRules (b : Builder V T) (head : V) (bodies : List (List (Symbol V T))) :
    (b.addRules head bodies).start = b.start := by
  unfold addRules
  induction bodies generalizing b with
  | nil => rfl
  | cons body rest ih =>
    rw [List.foldl_cons, ih]
    rfl

theorem start_declare (b : Builder V T) (call : Declaration V T) :
    (b.declare call).start = call.start?.or b.start := by
  cases call with
  | start v => rfl
  | rule head body => rfl
  | rules head bodies => exact start_addRules b head bodies

/-- Of all starts that are declared the last one counts. -/
theorem start_declareAll (b : Builder V T) (calls : List (Declaration V T)) :
    (b.declareAll calls).start = (calls.filterMap Declaration.start?).getLast?.or b.start := by
  unfold declareAll
  induction calls generalizing b with
  | nil => rfl
  | cons call calls ih =>
    rw [List.foldl_cons, ih, start_declare]
    cases hstart : call.start? with
    | none => rw [List.filterMap_cons_none hstart, Option.none_or]
    | some v =>
      rw [List.filterMap_cons_some hstart, List.getLast?_cons]
      cases (calls.filterMap Declaration.start?).getLast? <;> rfl

theorem rules_empty_declareAll (calls : List (Declaration V T)) :
    (empty.declareAll calls).rules = declaredRules calls := by
  rw [rules_declareAll]
  rfl

theorem production?_build_succ (b : Builder V T) (i : Nat) :
    b.build.production? (i + 1) = b.rules[i]?.map fun r => ⟨r, i + 1⟩ := by
  rw [build, Grammar.ofRules, Grammar.production?, List.getElem?_mapIdx]

theorem production?_declareAll_eq_some (calls : List (Declaration V T)) (n : Nat)
    (p : Production V T) :
    (empty.declareAll calls).build.production? n = some p ↔
      p.number = n ∧ 0 < n ∧ (declaredRules calls)[n - 1]? = some p.toRule := by
  cases n with
  | zero => simp [Grammar.production?]
  | succ i =>
    rw [production?_build_succ, rules_empty_declareAll, Option.map_eq_some_iff, Nat.add_sub_cancel]
    constructor
    · rintro ⟨r, hr, rfl⟩
      exact ⟨rfl, Nat.succ_pos i, hr⟩
    · rintro ⟨hnumber, _, hp⟩
      exact ⟨p.toRule, hp, by rw [← hnumber]⟩

/-- The number of a rule that has just been declared remains its number. -/
theorem production?_lastNumber (before : List (Declaration V T)) (head : V)
    (body : List (Symbol V T)) (behind : List (Declaration V T)) {n : Nat}
    (hn : ((empty.declareAll before).addRule head body).lastNumber = n) :
    (empty.declareAll (before ++ .rule head body :: behind)).build.production? n =
      some ⟨⟨head, body⟩, n⟩ := by
  have hnumber : n = (declaredRules before).length + 1 := by
    rw [← hn]
    simp [lastNumber, addRule, rules_empty_declareAll]
  rw [hnumber, production?_build_succ, rules_empty_declareAll, declaredRules, declaredRules,
    List.flatMap_append, List.flatMap_cons, List.getElem?_append_right (Nat.le_refl _),
    Nat.sub_self]
  rfl

theorem start_build (b : Builder V T) :
    b.build.start = b.start.or ((b.build.production? 1).map fun p => p.head) := by
  rw [production?_build_succ]
  obtain ⟨start, rules⟩ := b
  cases start <;> cases rules <;> rfl

end Builder

variable [DecidableEq V] [DecidableEq T]

/-- What the grammar of a list of calls is made of. -/
structure Grammar.DeclaredBy (g : Grammar V T) (calls : List (Declaration V T)) : Prop where
  /-- The productions are the rules added, in the order of the calls. -/
  rules : g.productions.map Production.toRule = declaredRules calls
  /-- They are numbered from 1 on. -/
  numbers : ∀ n p, g.production? n = some p ↔
    p.number = n ∧ 0 < n ∧ (declaredRules calls)[n - 1]? = some p.toRule
  /-- The number that is announced for a rule when it is added is its number in the grammar. -/
  announced : ∀ before head body behind n, calls = before ++ .rule head body :: behind →
    ((Builder.empty.declareAll before).addRule head body).lastNumber = n →
      g.production? n = some ⟨⟨head, body⟩, n⟩
  /-- The alternatives of a nonterminal are the productions with this head, by ascending number. -/
  alternatives : ∀ v, ((g.alternatives v).map fun p => p.number).Pairwise (· < ·) ∧
    ∀ p, p ∈ g.alternatives v ↔ g.production? p.number = some p ∧ p.head = v
  /-- The alternatives of all heads have all numbers, each once. -/
  partition : (g.heads.flatMap fun v => (g.alternatives v).map fun p => p.number).Perm
    (List.range' 1 (declaredRules calls).length)
  heads : g.heads.Nodup ∧ ∀ v, v ∈ g.heads ↔ ∃ r ∈ declaredRules calls, r.head = v
  /-- The heads come in the order in which the rules first name them. -/
  order : g.heads.Pairwise fun v w =>
    ((declaredRules calls).map Rule.head).idxOf v <
      ((declaredRules calls).map Rule.head).idxOf w
  defined : ∀ v, g.isDefined v ↔ g.alternatives v ≠ []
  terminals : ∀ t, g.isTerminal t ↔
    ∃ r ∈ declaredRules calls, .terminal t ∈ r.body
  /-- The start is the last one declared, or else the head of the first production. -/
  start : g.start = ((calls.filterMap Declaration.start?).getLast?).or
    ((g.production? 1).map fun p => p.head)

/-- Whatever is declared, and in whatever order, the grammar has just that. -/
theorem Builder.build_declaredBy (calls : List (Declaration V T)) :
    (empty.declareAll calls).build.DeclaredBy calls := by
  have hrules : (empty.declareAll calls).build.productions.map Production.toRule =
      declaredRules calls := by
    rw [build, Grammar.map_toRule_ofRules, rules_empty_declareAll]
  have hnumbers := production?_declareAll_eq_some calls
  generalize hg : (empty.declareAll calls).build = g at hrules hnumbers
  refine ⟨hrules, hnumbers, ?_, fun v => ⟨?_, fun p => ?_⟩, ?_, ⟨g.byHead.nodup, fun v => ?_⟩, ?_,
    g.isDefined_iff_alternatives, fun t => ?_, ?_⟩
  · rintro before head body behind n rfl hn
    rw [← hg]
    exact production?_lastNumber before head body behind hn
  · exact List.pairwise_map.mpr (g.pairwise_alternatives v)
  · rw [Grammar.mem_alternatives, Grammar.production?_eq_some]
    simp
  · rw [← hrules, List.length_map]
    exact g.perm_alternatives
  · rw [Grammar.mem_heads, ← hrules]
    simp
  · rw [← hrules, List.map_map, Grammar.heads_eq]
    exact Grouping.pairwise_idxOf_firsts _
  · rw [Grammar.isTerminal_iff, ← hrules]
    simp
  · rw [← hg, start_build, start_declareAll]
    simp [empty]

/-- Heads may come again, and a head without bodies is not one. -/
example : ((Builder.empty : Builder Char Char).declareAll
    [.rule 'B' [], .rules 'C' [], .rules 'A' [[.terminal 'x'], []], .rule 'B' [.nonterminal 'C'],
      .start 'C']).build.heads = ['B', 'A'] := by decide

end ContextFree
