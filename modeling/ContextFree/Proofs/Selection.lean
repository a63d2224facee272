import ContextFree.Proofs.BottomUp.Exact
import ContextFree.Proofs.TopDown.Exact

namespace ContextFree

variable {L A P V T : Type} {before : L → L → Prop} {good good' : List L → Prop}
  {numbers : List L → List Nat} {outcome outcome' : Except (ParseError V T) (List Nat)}

/-- An outcome gives the numbers of the first good list, or it says that there is none. -/
inductive Selects (before : L → L → Prop) (good : List L → Prop) (numbers : List L → List Nat) :
    Except (ParseError V T) (List Nat) → Prop
  | found {labels : List L} (h : First before good labels) :
      Selects before good numbers (.ok (numbers labels))
  | exhausted (h : ∀ labels, ¬ good labels) : Selects before good numbers (.error .noDerivation)

/-- What is selected corresponds if the good lists do, in the same order. -/
theorem Selects.map {f : L → L} {g : Nat → Nat} (h : Selects before good numbers outcome)
    (h' : Selects before good' numbers outcome')
    (hasymm : ∀ l l', before l l' → ¬ before l' l)
    (hgood : ∀ labels, good labels ↔ ∃ labels', good' labels' ∧ labels'.map f = labels)
    (hbefore : ∀ labels labels', good' labels → good' labels' → Earlier before labels labels' →
      Earlier before (labels.map f) (labels'.map f))
    (hnumbers : ∀ labels, numbers (labels.map f) = (numbers labels).map g) :
    outcome = outcome'.map (List.map g) := by
  cases h' with
  | @found labels' hfirst' =>
    have hmapped : First before good (labels'.map f) := by
      refine ⟨(hgood _).mpr ⟨labels', hfirst'.holds, rfl⟩, ?_⟩
      intro other hother
      obtain ⟨other', hother', rfl⟩ := (hgood other).mp hother
      rcases hfirst'.least other' hother' with rfl | hearlier
      · exact .inl rfl
      · exact .inr (hbefore _ _ hfirst'.holds hother' hearlier)
    cases h with
    | found hfirst =>
      rw [hfirst.unique hasymm hmapped, hnumbers]
      rfl
    | exhausted hnone => exact False.elim (hnone _ hmapped.holds)
  | exhausted hnone' =>
    cases h with
    | found hfirst =>
      obtain ⟨labels', hlabels', _⟩ := (hgood _).mp hfirst.holds
      exact False.elim (hnone' _ hlabels')
    | exhausted _ => rfl

/-- An automaton that carries out a search to its end selects from the labels of its solutions. -/
theorem Machine.Result.selects {m : Machine P V T} {input : Input V T}
    {before' : A → A → Prop} {solves : List A → Prop} {list : List A → List Nat}
    (h : m.Result input none before' solves list) (labels : List A → List L)
    (hgood : ∀ ls, good ls ↔ ∃ path, solves path ∧ labels path = ls)
    (hbefore : ∀ path path', Earlier before' path path' →
      Earlier before (labels path) (labels path'))
    (hlist : ∀ path, list path = numbers (labels path)) :
    ∃ outcome, m.Halts input outcome ∧ Selects before good numbers outcome := by
  cases h with
  | found path hsolves hfirst hhalts =>
    rw [hlist] at hhalts
    refine ⟨_, hhalts, .found ⟨(hgood _).mpr ⟨path, hsolves, rfl⟩, ?_⟩⟩
    intro other hother
    obtain ⟨path', hsolves', rfl⟩ := (hgood other).mp hother
    rcases hfirst path' hsolves' with rfl | hearlier
    · exact .inl rfl
    · exact .inr (hbefore _ _ hearlier)
  | exhausted hsolves hhalts =>
    refine ⟨_, hhalts, .exhausted fun ls hls => ?_⟩
    obtain ⟨path, hpath, _⟩ := (hgood ls).mp hls
    exact hsolves path hpath
  | blocked f hfault _ => cases hfault

variable [DecidableEq V] [DecidableEq T] [Name V] [Name T] {g : Grammar V T} {start : V}

/-- Top-down parsing selects from the left parses of a word. -/
theorem TopDown.selects (hready : g.TopDownReady start) {word : List T}
    (alphabet : ∀ t ∈ word, g.isTerminal t) :
    ∃ outcome, (machine g start).Halts ⟨.ofList (word.map .terminal), g.isTerminal⟩ outcome ∧
      Selects (· < ·) (fun list => g.LeftParse list [.nonterminal start] (word.map .terminal)) id
        outcome :=
  (result (Input.stops_ofList word alphabet) hready).selects TopDown.numbers
    (fun _ => leftParse_iff_solves) (fun _ _ h => h.filterMap _ number_of_before) fun _ => rfl

/-- Bottom-up parsing selects from the accepted runs of a word. -/
theorem BottomUp.selects (hready : g.BottomUpReady start) {word : List T}
    (alphabet : ∀ t ∈ word, g.isTerminal t) :
    ∃ outcome, (machine g start).Halts ⟨.ofList (word.map .terminal), g.isTerminal⟩ outcome ∧
      Selects Action.Before (g.Accepts start word) Action.reductions outcome :=
  (result (Input.stops_ofList word alphabet) hready).selects (List.map Point.action)
    (fun _ => accepts_iff_solves hready) (fun _ _ h => action_before h) fun _ => rfl

end ContextFree
