import ContextFree.Proofs.Runs
import ContextFree.Proofs.Search

namespace ContextFree

open Relation

variable {A N P V T : Type}

namespace Machine

/-- A run ends with the first solution of a search, without one, or with a fault of the input. -/
inductive Result (m : Machine P V T) (input : Input V T) (fault : Option (InputFault V T))
    (before : A → A → Prop) (solves : List A → Prop) (list : List A → List Nat) : Prop
  | found (path : List A) (hsolves : solves path)
      (hfirst : ∀ path', solves path' → path' = path ∨ Earlier before path path')
      (hhalts : m.Halts input (.ok (list path)))
  | exhausted (hsolves : ∀ path, ¬ solves path) (hhalts : m.Halts input (.error .noDerivation))
  | blocked (f : InputFault V T) (hfault : fault = some f)
      (hhalts : m.Halts input (.error (.badInput f)))

variable {m : Machine P V T} {input : Input V T} {fault : Option (InputFault V T)}
  {before : A → A → Prop} {solves : List A → Prop} {list : List A → List Nat}

/-- An automaton that carries out a finite search lawfully ends with its result, if it accepts at
goals and rejects behind the last choice of all. -/
theorem result_of_lawful {b : Backtracker A N (Configuration P V T)} (law : b.Lawful) {n : N}
    (hacc : Acc b.search.Child n)
    (hsorted : ∀ n choices blocked, b.search n = .options choices blocked →
      choices.Pairwise fun x y => before x.1 y.1)
    (hstep : b.step = m.Moves input) (hinitial : b.enter n [] = m.initial)
    (hgoal : ∀ e path, b.search e = .goal → ∃ c, m.Moves input (b.enter e path.reverse) c ∧
      m.move c = .accept (list path))
    (hleave : m.move (b.leave n []) = .reject)
    (hbreaks : ∀ c, b.breaks c → ∃ f, fault = some f ∧ m.Breaks input f c) :
    m.Result input fault before (b.search.Solves n) list := by
  have hends := law.ends hsorted hacc []
  rw [hinitial] at hends
  cases hends with
  | found path e hsolves hfirst hsearch hreach =>
    obtain ⟨c, hlast, haccept⟩ := hgoal e path hsearch
    rw [hstep, List.append_nil] at hreach
    exact .found path hsolves hfirst (.of_accept (hreach.tail hlast) haccept)
  | exhausted hsolves _ hreach =>
    rw [hstep] at hreach
    exact .exhausted hsolves (.of_reject hreach hleave)
  | blocked y _ hreach hy =>
    obtain ⟨f, hf, hb⟩ := hbreaks y hy
    rw [hstep] at hreach
    exact .blocked f hf (.of_breaks hreach hb)

theorem Result.halts (h : m.Result input fault before solves list) :
    ∃ outcome, m.Halts input outcome := by
  cases h with
  | found path _ _ hhalts => exact ⟨_, hhalts⟩
  | exhausted _ hhalts => exact ⟨_, hhalts⟩
  | blocked f _ hhalts => exact ⟨_, hhalts⟩

/-- On an input without a fault the report gives the first solution, or it says that there is
none. -/
theorem Result.report (h : m.Result input none before solves list) :
    ∃ moves report, (∀ more, m.report? input .silent (moves + more) = some report) ∧
      ((∃ numbers, report.outcome = .ok numbers) ↔ ∃ path, solves path) ∧
      (∀ numbers, report.outcome = .ok numbers → ∃ path, numbers = list path ∧ solves path ∧
        ∀ path', solves path' → path' = path ∨ Earlier before path path') ∧
      ((¬ ∃ path, solves path) → report.outcome = .error .noDerivation) := by
  cases h with
  | found path hsolves hfirst hhalts =>
    obtain ⟨moves, report, hout, hreport⟩ := hhalts.report
    refine ⟨moves, report, hreport, ?_, ?_, ?_⟩
    · exact ⟨fun _ => ⟨path, hsolves⟩, fun _ => ⟨list path, hout⟩⟩
    · intro numbers hnumbers
      rw [hout] at hnumbers
      cases hnumbers
      exact ⟨path, rfl, hsolves, hfirst⟩
    · intro hnone
      exact False.elim (hnone ⟨path, hsolves⟩)
  | exhausted hsolves hhalts =>
    obtain ⟨moves, report, hout, hreport⟩ := hhalts.report
    have herror : ∀ numbers, report.outcome ≠ .ok numbers := by simp [hout]
    refine ⟨moves, report, hreport, ?_, ?_, fun _ => hout⟩
    · constructor
      · intro hok
        obtain ⟨numbers, hnumbers⟩ := hok
        exact False.elim (herror numbers hnumbers)
      · intro hsome
        obtain ⟨path, hpath⟩ := hsome
        exact False.elim (hsolves path hpath)
    · intro numbers hnumbers
      exact False.elim (herror numbers hnumbers)
  | blocked f hfault _ => cases hfault

end Machine

end ContextFree
