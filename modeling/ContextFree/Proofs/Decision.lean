import ContextFree.Proofs.Invariant
import ContextFree.Proofs.ParseTree

namespace ContextFree

variable {A P V T : Type}

theorem Source.brings_ofList (word : List T) :
    (Source.ofList (word.map .terminal) : Source V T).Brings word := by
  intro i _
  rw [Source.ofList_apply, List.getElem?_map]

section Alphabet

variable {g : Grammar V T} [DecidableEq T]

/-- A yield brings terminals of the alphabet only, apart from those of the string itself. -/
theorem Grammar.Yields.isTerminal {form : List (Symbol V T)} {w : List T} (h : g.Yields form w)
    (hform : ∀ t, .terminal t ∈ form → g.isTerminal t) : ∀ t ∈ w, g.isTerminal t := by
  induction h with
  | nil => exact fun t ht => by cases ht
  | terminal t _ ih =>
    rw [List.forall_mem_cons]
    exact ⟨hform t List.mem_cons_self, ih fun t' ht' => hform t' (List.mem_cons_of_mem _ ht')⟩
  | @nonterminal _ _ _ p hp _ _ ihbody ih =>
    rw [List.forall_mem_append]
    exact ⟨ihbody fun t ht => isTerminal_iff.mpr ⟨p, hp, ht⟩,
      ih fun t ht => hform t (List.mem_cons_of_mem _ ht)⟩

theorem Grammar.Derives.isTerminal {v : V} {w : List T}
    (h : g.Derives [.nonterminal v] (w.map .terminal)) : ∀ t ∈ w, g.isTerminal t :=
  h.yields.isTerminal (by simp)

omit [DecidableEq T] in
theorem Grammar.Grows.derives {form : List (Symbol V T)} {ds : List (LabelledTree V T)}
    (h : g.Grows form ds) : g.Derives form ((ds.flatMap LabelledTree.word).map .terminal) := by
  apply Yields.derives
  induction h with
  | nil => exact .nil
  | leaf t _ ih =>
    rw [List.flatMap_cons, LabelledTree.word]
    exact .terminal t ih
  | node hp _ _ ihbody ih =>
    rw [List.flatMap_cons, LabelledTree.word]
    exact .nonterminal hp ihbody ih

end Alphabet

namespace Machine

variable {m : Machine P V T} {input : Input V T}

/-- A run without a trace cannot halt in any other way. -/
theorem Halts.cases {outcome : Except (ParseError V T) (List Nat)} (h : m.Halts input outcome) :
    (∃ numbers, outcome = .ok numbers) ∨ outcome = .error .noDerivation ∨
      ∃ f, outcome = .error (.badInput f) := by
  obtain ⟨moves, r, hrun⟩ := h
  have hkeep : m.Invariant input fun _ _ => True :=
    ⟨trivial, fun _ _ _ _ _ => trivial, fun _ _ _ _ _ _ => trivial⟩
  have hkept := hkeep.kept .silent moves
  rw [hrun] at hkept
  cases hkept with
  | accepted _ _ _ => exact .inl ⟨_, rfl⟩
  | rejected _ _ _ => exact .inr (.inl rfl)
  | faulty _ _ _ _ => exact .inr (.inr ⟨_, rfl⟩)
  | refused _ hwrite => cases hwrite

/-- An automaton that carries out a search on every input that stops decides the words over its
alphabet, if the search solves them. -/
theorem exists_halts {before : A → A → Prop}
    {solves : List T → Option (InputFault V T) → List A → Prop} {list : List A → List Nat}
    {isTerminal : T → Bool} (word : List T) (good : Prop)
    (hresult : ∀ word' fault,
      (⟨.ofList (word.map .terminal), isTerminal⟩ : Input V T).Stops word' fault →
        m.Result ⟨.ofList (word.map .terminal), isTerminal⟩ fault before (solves word' fault) list)
    (halphabet : good → ∀ t ∈ word, isTerminal t) (hsolves : good → ∃ path, solves word none path) :
    ∃ outcome, m.Halts ⟨.ofList (word.map .terminal), isTerminal⟩ outcome ∧
      (good → ∃ numbers, outcome = .ok numbers) := by
  by_cases hgood : good
  · obtain ⟨path, hpath⟩ := hsolves hgood
    cases hresult word none (Input.stops_ofList word (halphabet hgood)) with
    | found path' _ _ hhalts => exact ⟨_, hhalts, fun _ => ⟨_, rfl⟩⟩
    | exhausted hnone _ => exact False.elim (hnone path hpath)
    | blocked f hf _ => cases hf
  · -- Letters outside the alphabet may be in the way, but the run halts at the first of them.
    have hstops : (Source.ofList (word.map .terminal) : Source V T).Stops isTerminal :=
      ⟨word.length, .inl (by simp [Source.ofList_apply])⟩
    obtain ⟨word', fault, hi⟩ := Input.exists_stops hstops
    obtain ⟨outcome, hhalts⟩ := (hresult word' fault hi).halts
    exact ⟨outcome, hhalts, fun h => False.elim (hgood h)⟩

end Machine

namespace Strategy

variable [DecidableEq V] {strategy : Strategy} {g : Grammar V T} {start : V}

theorem start_of_check (accepted : strategy.check g = .ok start) : g.start = some start := by
  cases strategy with
  | topDown => exact (Grammar.topDownReady_of_check accepted).start_eq
  | bottomUp => exact (Grammar.bottomUpReady_of_check accepted).start_eq

variable [DecidableEq T] [Name V] [Name T]

/-- A report stays the same with further moves. -/
theorem parse_add {source : Source V T} {sink : Sink} {moves : Nat} {report : Report V T}
    (h : strategy.parse g source sink moves = some report) (more : Nat) :
    strategy.parse g source sink (moves + more) = some report := by
  unfold parse at h ⊢
  cases hcheck : strategy.check g with
  | error defect =>
    rw [hcheck] at h
    exact h
  | ok start =>
    rw [hcheck] at h
    cases strategy with
    | topDown => exact Machine.report?_add h more
    | bottomUp => exact Machine.report?_add h more

/-- The automaton of a strategy comes to an outcome. -/
def Halts (g : Grammar V T) (start : V) (source : Source V T)
    (outcome : Except (ParseError V T) (List Nat)) : Strategy → Prop
  | topDown => (TopDown.machine g start).Halts ⟨source, g.isTerminal⟩ outcome
  | bottomUp => (BottomUp.machine g start).Halts ⟨source, g.isTerminal⟩ outcome

variable {source : Source V T} {outcome : Except (ParseError V T) (List Nat)}

theorem Halts.cases (h : strategy.Halts g start source outcome) :
    (∃ list, outcome = .ok list) ∨ outcome = .error .noDerivation ∨
      ∃ f, outcome = .error (.badInput f) := by
  cases strategy with
  | topDown => exact Machine.Halts.cases h
  | bottomUp => exact Machine.Halts.cases h

/-- Every word is decided, whether or not its letters belong to the alphabet. -/
theorem exists_halts (accepted : strategy.check g = .ok start) (word : List T) :
    ∃ outcome, strategy.Halts g start (.ofList (word.map .terminal)) outcome ∧
      (g.Derives [.nonterminal start] (word.map .terminal) → ∃ list, outcome = .ok list) := by
  cases strategy with
  | topDown =>
    have hready := Grammar.topDownReady_of_check accepted
    refine Machine.exists_halts word _ (fun _ _ hi => TopDown.result hi hready)
      Grammar.Derives.isTerminal fun h => ?_
    obtain ⟨list, hlist⟩ := Grammar.derives_iff_leftParse.mp h
    obtain ⟨path, hsolves, _⟩ := TopDown.leftParse_iff_solves.mp hlist
    exact ⟨path, hsolves⟩
  | bottomUp =>
    have hready := Grammar.bottomUpReady_of_check accepted
    refine Machine.exists_halts word _ (fun _ _ hi => BottomUp.result hi hready)
      Grammar.Derives.isTerminal fun h => ?_
    obtain ⟨actions, hactions⟩ := Grammar.derives_iff_accepts.mp h
    obtain ⟨path, hsolves, _⟩ := (BottomUp.accepts_iff_solves hready).mp hactions
    exact ⟨path, hsolves⟩

theorem Halts.report (accepted : strategy.check g = .ok start)
    (h : strategy.Halts g start source outcome) :
    ∃ moves report, strategy.parse g source .silent moves = some report ∧
      report.outcome = outcome := by
  cases strategy with
  | topDown =>
    obtain ⟨moves, report, houtcome, hreport⟩ := Machine.Halts.report h
    exact ⟨moves, report, (TopDown.parse_eq_report accepted ..).trans (hreport 0), houtcome⟩
  | bottomUp =>
    obtain ⟨moves, report, houtcome, hreport⟩ := Machine.Halts.report h
    exact ⟨moves, report, (BottomUp.parse_eq_report accepted ..).trans (hreport 0), houtcome⟩

/-- A derivation that a run comes to can be replayed, and it is one of the word. -/
theorem Halts.derives {word : List T} {list : List Nat} (accepted : strategy.check g = .ok start)
    (h : strategy.Halts g start (.ofList (word.map .terminal)) (.ok list)) :
    g.Derives [.nonterminal start] (word.map .terminal) ∧
      ∃ tree, strategy.tree g list = .ok tree := by
  obtain ⟨moves, report, hreport, houtcome⟩ := h.report accepted
  obtain ⟨start', d, hstart, hgrows, rfl, hbrings, _⟩ := exists_labelledTree hreport houtcome
  cases hstart.symm.trans (start_of_check accepted)
  have hword : word = d.word := (Source.brings_ofList word).unique hbrings
  have hderives := hgrows.derives
  rw [List.flatMap_singleton, ← hword] at hderives
  exact ⟨hderives, d.erase, tree_derivation hstart hgrows⟩

end Strategy

end ContextFree
