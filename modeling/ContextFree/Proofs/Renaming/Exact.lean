import ContextFree.Proofs.Renaming.Automata
import ContextFree.Proofs.Renaming.Trees
import Mathlib.Logic.Equiv.Basic

namespace ContextFree

open Function (Injective)

variable {V V' T T' : Type} {f : V → V'} {e : T → T'} [DecidableEq V] [DecidableEq V']
  [DecidableEq T] [DecidableEq T'] [Name V] [Name V'] [Name T] [Name T']

theorem Strategy.parse_map (hf : Injective f) (he : Injective e) (strategy : Strategy)
    (g : Grammar V T) (source : Source V T) (sink : Sink) (moves : Nat) :
    Option.Rel (Report.Alike f e) (strategy.parse g source sink moves)
      (strategy.parse (g.map f e) (source.map f e) sink moves) := by
  unfold parse
  rw [check_map hf]
  cases strategy.check g with
  | error defect => exact .some ⟨rfl, rfl, rfl⟩
  | ok start =>
    have halphabet := Grammar.isTerminal_map (f := f) (g := g) he
    cases strategy with
    | topDown => exact (TopDown.machine_alike hf he g start).report halphabet source sink moves
    | bottomUp => exact (BottomUp.machine_alike hf he g start).report halphabet source sink moves

/-- Renaming the nonterminals and the terminals of a grammar, each injectively, renames all that is
made of it and changes nothing else: it commutes with declaring the grammar, with finding the
nonterminals that derive the empty string, with both checks, with both parsers on every input, and
with both replays of every list of numbers. -/
theorem Grammar.map_exact (hf : Injective f) (he : Injective e) (g : Grammar V T) :
    (∀ b : Builder V T, b.build = g → (b.map f e).build = g.map f e) ∧
      (g.map f e).nullable = g.nullable.map f ∧
      (∀ strategy : Strategy,
        strategy.check (g.map f e) = ((strategy.check g).mapError (Defect.map f)).map f) ∧
      (∀ (strategy : Strategy) (source : Source V T) (sink : Sink) (moves : Nat),
        Option.Rel (Report.Alike f e) (strategy.parse g source sink moves)
          (strategy.parse (g.map f e) (source.map f e) sink moves)) ∧
      ∀ parse : List Nat,
        Tree.ofLeftParse (g.map f e) parse = (Tree.ofLeftParse g parse).map (Tree.map f e) ∧
          Tree.ofRightParse (g.map f e) parse = (Tree.ofRightParse g parse).map (Tree.map f e) := by
  refine ⟨?_, nullable_map hf, Strategy.check_map hf, ?_, fun parse => ?_⟩
  · rintro b rfl
    exact b.build_map f e
  · intro strategy source sink moves
    exact Strategy.parse_map hf he strategy g source sink moves
  · exact ⟨Tree.ofLeftParse_map hf g parse, Tree.ofRightParse_map hf he g parse⟩

/-- `S -> a S` and `S -> b`. -/
def closedByB : Grammar Char Char :=
  .ofRules none [⟨'S', [.terminal 'a', .nonterminal 'S']⟩, ⟨'S', [.terminal 'b']⟩]

/-- Calls a terminal `a` by the name `S`. -/
def callS (t : Char) : String :=
  .singleton (Equiv.swap 'a' 'S' t)

/-- With the terminal `a` renamed into a second `S`, the input `SSb` is parsed as `aab` was. -/
theorem Grammar.map_exact_sharedName :
    Injective String.singleton ∧ Injective callS ∧
      (closedByB.map String.singleton callS).productions.map Production.toRule =
        [⟨"S", [.terminal "S", .nonterminal "S"]⟩, ⟨"S", [.terminal "b"]⟩] ∧
      ∃ report, Strategy.bottomUp.parse (closedByB.map String.singleton callS)
          ((Source.ofText "aab").map String.singleton callS) (.new none) 20 = some report ∧
        report.outcome = .ok [1, 1, 2] ∧ report.taken = 3 ∧ report.trace.length = 8 := by
  have hf : Injective String.singleton := fun c d h => by simpa using h
  have he : Injective callS := hf.comp (Equiv.swap 'a' 'S').injective
  refine ⟨hf, he, by decide, ?_⟩
  have hreport : ∃ report, Strategy.bottomUp.parse closedByB (.ofText "aab") (.new none) 20 =
      some report ∧ report.outcome = .ok [1, 1, 2] ∧ report.taken = 3 ∧
        report.trace.length = 8 := ⟨_, rfl, rfl, rfl, rfl⟩
  obtain ⟨report, hparse, houtcome, htaken, htrace⟩ := hreport
  have halike := (map_exact hf he closedByB).2.2.2.1 .bottomUp (.ofText "aab") (.new none) 20
  rw [hparse] at halike
  generalize Strategy.bottomUp.parse (closedByB.map String.singleton callS) _ _ _ = parse at halike
  cases halike with
  | some h =>
    refine ⟨_, rfl, ?_, ?_, ?_⟩
    · rw [h.outcome, houtcome]
      rfl
    · rw [h.taken, htaken]
    · rw [h.trace, htrace]

end ContextFree
