import ContextFree.Proofs.Rewriting
import ContextFree.Proofs.Vanishing

namespace ContextFree

variable {V T : Type} [DecidableEq V]

namespace Grammar

variable {g : Grammar V T} {known : List V} {form : List (Symbol V T)}

omit [DecidableEq V] in
/-- A string of symbols that each yield the empty word yields it. -/
theorem yields_nil_of_forall (h : ∀ s ∈ form, g.Yields [s] []) : g.Yields form [] := by
  induction form with
  | nil => exact .nil
  | cons s form ih =>
    obtain ⟨hs, hform⟩ := List.forall_mem_cons.mp h
    exact hs.append (ih hform)

/-- All known nonterminals yield the empty word. -/
def Vanish (g : Grammar V T) (known : List V) : Prop :=
  ∀ v ∈ known, g.Yields [.nonterminal v] []

theorem Vanish.yields (h : g.Vanish known) (hform : form.all (Symbol.vanishes known)) :
    g.Yields form [] := by
  apply yields_nil_of_forall
  intro s hs
  have hs := List.all_eq_true.mp hform s hs
  cases s with
  | terminal t => cases hs
  | nonterminal v => exact h v (of_decide_eq_true hs)

theorem Vanish.learn (h : g.Vanish known) {p : Production V T} (hp : p ∈ g.productions) :
    g.Vanish (p.learn known) := by
  intro v hv
  rcases Rule.mem_learn hv with hv | ⟨rfl, hbody⟩
  · exact h v hv
  · exact .nonterminal hp (h.yields hbody) .nil

/-- The nonterminals that are found yield the empty word. -/
theorem vanish_nullable (g : Grammar V T) : g.Vanish g.nullable :=
  passes_induction (fun _ h _ hp => h.learn hp) (by simp [Vanish]) _

/-- All of a string that yields the empty word belongs to a closed set. -/
theorem Closed.all_vanishes (h : g.Closed known) (hform : g.Yields form []) :
    form.all (Symbol.vanishes known) := by
  generalize hw : ([] : List T) = w at hform
  induction hform with
  | nil => rfl
  | terminal t _ _ => cases hw
  | nonterminal hp _ _ ihbody ih =>
    obtain ⟨hx, hy⟩ := List.append_eq_nil_iff.mp hw.symm
    rw [List.all_cons, ih hy.symm, Bool.and_true]
    exact decide_eq_true (h _ hp (ihbody hx.symm))

/-- For every grammar, passes that go on until one learns nothing come to an end, with distinct
nonterminals: all that derive the empty string, and no others. -/
theorem nullable_exact (g : Grammar V T) :
    (∀ found, g.Settles [] found ↔ found = g.nullable) ∧ g.nullable.Nodup ∧
      ∀ v, v ∈ g.nullable ↔ g.Derives [.nonterminal v] [] := by
  have hsettles := g.settles_nullable
  refine ⟨fun found => ⟨fun h => h.unique hsettles, ?_⟩, (g.heads_nil.passes _).nodup, fun v => ?_⟩
  · rintro rfl
    exact hsettles
  · constructor
    · intro hv
      exact (g.vanish_nullable v hv).derives
    · intro h
      have hyields : g.Yields [.nonterminal v] [] := Derives.yields (w := []) h
      have hvanishes := g.closed_nullable.all_vanishes hyields
      simpa [Symbol.vanishes] using hvanishes

end Grammar

end ContextFree
