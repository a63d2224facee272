import ContextFree.Proofs.DepthFirst
import ContextFree.Proofs.TopDown.Exact

namespace ContextFree.TopDown

variable {V T : Type}

def Point.terminal? : Point V T → Option T
  | expand _ _ => none
  | matched t => some t

/-- The symbol that was in front where a choice was made. -/
def Point.front : Point V T → Symbol V T
  | expand p _ => .nonterminal p.head
  | matched t => .terminal t

/-- Of two expansions the one of the lower rank is tried first. -/
def Point.Sooner : Point V T → Point V T → Prop
  | expand _ m, expand _ n => m < n
  | _, _ => False

/-- The terminals of a history in the order in which they were matched. -/
def matchedWord (history : List (Point V T)) : List T :=
  history.reverse.filterMap Point.terminal?

section History

variable (older : List (Point V T)) (p : Production V T) (rank : Nat) (t : T)

@[simp]
theorem matchedWord_nil : matchedWord ([] : List (Point V T)) = [] := rfl

@[simp]
theorem matchedWord_expand : matchedWord (.expand p rank :: older) = matchedWord older := by
  simp [matchedWord, Point.terminal?]

@[simp]
theorem matchedWord_matched : matchedWord (.matched t :: older) = matchedWord older ++ [t] := by
  simp [matchedWord, Point.terminal?]

@[simp]
theorem derivation_expand :
    derivation (.expand p rank :: older) = derivation older ++ [p.number] := by
  simp [derivation, Point.number?]

@[simp]
theorem derivation_matched : derivation (.matched t :: older) = derivation older := by
  simp [derivation, Point.number?]

end History

variable [DecidableEq V]

/-- The frontier that the choices of a history lead to. An expansion replaces the nonterminal in
front by the body of the production that has its rank among the alternatives, and a match takes away
the terminal in front, which the input answers next. -/
inductive Replays (g : Grammar V T) (start : V) (input : Input V T) :
    List (Point V T) → List (Symbol V T) → Prop
  | start : Replays g start input [] [.nonterminal start]
  | expand {older : List (Point V T)} {rest : List (Symbol V T)} {p : Production V T} {rank : Nat}
      (hrank : (g.alternatives p.head)[rank]? = some p)
      (h : Replays g start input older (.nonterminal p.head :: rest)) :
      Replays g start input (.expand p rank :: older) (p.body ++ rest)
  | matched {older : List (Point V T)} {rest : List (Symbol V T)} {t : T}
      (hanswer : input.answer (matchedWord older).length = some (.ok t))
      (h : Replays g start input older (.terminal t :: rest)) :
      Replays g start input (.matched t :: older) rest

section Replays

variable {g : Grammar V T} {start : V} {input : Input V T} {history older : List (Point V T)}
  {frontier frontier' : List (Symbol V T)}

/-- A history determines the frontier. -/
theorem Replays.unique (h : Replays g start input history frontier)
    (h' : Replays g start input history frontier') : frontier = frontier' := by
  induction h generalizing frontier' with
  | start =>
    cases h' with
    | start => rfl
  | expand _ _ ih =>
    cases h' with
    | expand _ h' =>
      cases ih h'
      rfl
  | matched _ _ ih =>
    cases h' with
    | matched _ h' =>
      cases ih h'
      rfl

/-- The body of the latest expansion is still in front. -/
theorem Replays.of_expand {p : Production V T} {rank : Nat}
    (h : Replays g start input (.expand p rank :: older) frontier) :
    (g.alternatives p.head)[rank]? = some p ∧
      ∃ rest, frontier = p.body ++ rest ∧
        Replays g start input older (.nonterminal p.head :: rest) := by
  cases h with
  | expand hrank h => exact ⟨hrank, _, rfl, h⟩

theorem Replays.of_matched {t : T}
    (h : Replays g start input (.matched t :: older) frontier) :
    input.answer (matchedWord older).length = some (.ok t) ∧
      Replays g start input older (.terminal t :: frontier) := by
  cases h with
  | matched hanswer h => exact ⟨hanswer, h⟩

theorem Replays.rank_eq (h : Replays g start input history frontier) {p : Production V T}
    {rank : Nat} (hmem : .expand p rank ∈ history) : (g.alternatives p.head)[rank]? = some p := by
  induction h with
  | start => cases hmem
  | expand hrank _ ih =>
    rcases List.mem_cons.mp hmem with heq | hmem
    · cases heq
      exact hrank
    · exact ih hmem
  | matched _ _ ih =>
    rcases List.mem_cons.mp hmem with heq | hmem
    · cases heq
    · exact ih hmem

/-- The terminals matched are the first ones of the input. -/
theorem Replays.begins (h : Replays g start input history frontier) :
    input.source.Begins input.isTerminal (matchedWord history) := by
  induction h with
  | start =>
    intro i t ht
    simp at ht
  | expand _ _ ih =>
    rw [matchedWord_expand]
    exact ih
  | matched hanswer _ ih =>
    rw [matchedWord_matched]
    exact ih.concat hanswer

/-- The expansions of a history rewrite the start to what has been matched and the frontier. -/
theorem Replays.leftParse (h : Replays g start input history frontier) :
    g.LeftParse (derivation history) [.nonterminal start]
      ((matchedWord history).map .terminal ++ frontier) := by
  induction h with
  | start => exact .nil _
  | @expand older rest p rank hrank _ ih =>
    have hin : p ∈ g.productions :=
      (Grammar.mem_alternatives.mp (List.mem_of_getElem? hrank)).1
    have hstep : g.LeftStep p.number
        ((matchedWord older).map .terminal ++ .nonterminal p.head :: rest)
        ((matchedWord older).map .terminal ++ p.body ++ rest) :=
      ⟨matchedWord older, rest, p, hin, rfl, rfl, rfl⟩
    rw [derivation_expand, matchedWord_expand, ← List.append_assoc]
    exact Steps.append ih (.single hstep)
  | matched _ _ ih => simpa using ih

end Replays

/-- The history of a configuration accounts for its frontier and for its cursor. -/
structure Accounted (g : Grammar V T) (start : V) (input : Input V T) (c : Config V T) : Prop where
  replays : Replays g start input c.history c.symbols
  cursor : c.cursor = (matchedWord c.history).length + 1

section Looks

variable {g : Grammar V T} {start : V} {input : Input V T} {c : Config V T}

theorem Accounted.finish (h : Accounted g start input c) (seen : Option T) :
    Accounted g start input (finish c seen) := by
  cases seen with
  | none => exact ⟨h.replays, h.cursor⟩
  | some t => exact ⟨h.replays, h.cursor⟩

theorem Accounted.matchFront [DecidableEq T] (h : Accounted g start input c) {t : T}
    {rest : List (Symbol V T)} (hfront : c.symbols = .terminal t :: rest) {seen : Option T}
    (hseen : ∀ s, seen = some s → input.answer (matchedWord c.history).length = some (.ok s)) :
    Accounted g start input (matchFront c t rest seen) := by
  have hreplays := h.replays
  rw [hfront] at hreplays
  unfold TopDown.matchFront
  split
  · rename_i ht
    exact ⟨.matched (hseen t ht) hreplays, by simp [h.cursor]⟩
  · exact ⟨h.replays, h.cursor⟩

end Looks

variable [DecidableEq T]

/-- All that a move can be, by what is in front of a configuration that makes its next choice, or by
the latest choice of one that undoes it. -/
inductive Turn (g : Grammar V T) (c : Config V T) : Move (Point V T) V T → Prop
  | finish (hmode : c.mode = .querying) : Turn g c (.look (finish c))
  | matchFront {t : T} {rest : List (Symbol V T)} (hmode : c.mode = .querying)
      (hfront : c.symbols = .terminal t :: rest) : Turn g c (.look (matchFront c t rest))
  | expand {v : V} {rest : List (Symbol V T)} {p : Production V T} (hmode : c.mode = .querying)
      (hfront : c.symbols = .nonterminal v :: rest) (hfirst : (g.alternatives v)[0]? = some p) :
      Turn g c (.enter (expand c p 0 c.history rest))
  | giveUp (hmode : c.mode = .querying) : Turn g c (.enter { c with mode := .backtracking })
  | unmatch {t : T} {older : List (Point V T)} (hmode : c.mode = .backtracking)
      (hhistory : c.history = .matched t :: older) :
      Turn g c (.enter { c with
        cursor := c.cursor - 1, history := older, symbols := .terminal t :: c.symbols })
  | replace {p q : Production V T} {rank : Nat} {older : List (Point V T)}
      (hmode : c.mode = .backtracking) (hhistory : c.history = .expand p rank :: older)
      (hnext : (g.alternatives p.head)[rank + 1]? = some q) :
      Turn g c (.enter (TopDown.expand c q (rank + 1) older (c.symbols.drop p.body.length)))
  | drop {p : Production V T} {rank : Nat} {older : List (Point V T)}
      (hmode : c.mode = .backtracking) (hhistory : c.history = .expand p rank :: older)
      (hnext : (g.alternatives p.head)[rank + 1]? = none) :
      Turn g c (.enter { c with
        history := older, symbols := .nonterminal p.head :: c.symbols.drop p.body.length })
  | accept (derivation : List Nat) : Turn g c (.accept derivation)
  | reject : Turn g c .reject

theorem turn_move (g : Grammar V T) (c : Config V T) : Turn g c (move g.byHead c) := by
  unfold move
  split
  · rename_i hmode
    unfold query
    split
    · exact .finish hmode
    · rename_i hfront
      exact .matchFront hmode hfront
    · rename_i hfront
      split
      · rename_i hfirst
        exact .expand hmode hfront hfirst
      · exact .giveUp hmode
  · rename_i hmode
    unfold backtrack
    split
    · exact .reject
    · rename_i hhistory
      exact .unmatch hmode hhistory
    · rename_i hhistory
      dsimp only
      split
      · rename_i hnext
        exact .replace hmode hhistory hnext
      · rename_i hnext
        exact .drop hmode hhistory hnext
  · exact .accept _

variable [Name V] [Name T] {g : Grammar V T} {start : V} {input : Input V T} {c c' : Config V T}

theorem turn_of_move {chosen : Move (Point V T) V T} (h : (machine g start).move c = chosen) :
    Turn g c chosen :=
  h ▸ turn_move g c

/-- The history accounts for the frontier in every configuration of a run. -/
theorem invariant_accounted (g : Grammar V T) (start : V) (input : Input V T) :
    (machine g start).Invariant input fun c _ => Accounted g start input c where
  initial := ⟨.start, rfl⟩
  enter := by
    intro c r c' h hmove
    have hreplays := h.replays
    have hcursor := h.cursor
    cases turn_of_move hmove with
    | expand _ hfront hfirst =>
      obtain ⟨_, rfl⟩ := Grammar.mem_alternatives.mp (List.mem_of_getElem? hfirst)
      rw [hfront] at hreplays
      exact ⟨.expand hfirst hreplays, by simpa [expand] using hcursor⟩
    | giveUp _ => exact ⟨hreplays, hcursor⟩
    | unmatch _ hhistory =>
      rw [hhistory] at hreplays hcursor
      exact ⟨hreplays.of_matched.2, by simp [hcursor]⟩
    | replace _ hhistory hnext =>
      rw [hhistory] at hreplays hcursor
      obtain ⟨_, rest, hfrontier, holder⟩ := hreplays.of_expand
      obtain ⟨_, hhead⟩ := Grammar.mem_alternatives.mp (List.mem_of_getElem? hnext)
      rw [← hhead] at hnext holder
      refine ⟨?_, by simpa [expand] using hcursor⟩
      rw [hfrontier, List.drop_left]
      exact .expand hnext holder
    | drop _ hhistory _ =>
      rw [hhistory] at hreplays hcursor
      obtain ⟨_, rest, hfrontier, holder⟩ := hreplays.of_expand
      refine ⟨?_, by simpa using hcursor⟩
      rw [hfrontier, List.drop_left]
      exact holder
  look := by
    intro c r next h hmove hlive
    cases turn_of_move hmove with
    | finish _ => exact h.finish _
    | matchFront _ hfront =>
      apply h.matchFront hfront
      intro s hs
      rw [h.cursor] at hlive hs
      exact hlive.buffer _ _ hs

/-- A move is one of a depth-first search that tries the alternatives of a nonterminal by rank. -/
theorem proceeds_of_follows (hfollows : (machine g start).Follows c c') :
    Proceeds Point.Sooner c c' := by
  cases hfollows with
  | enter hmove =>
    cases turn_of_move hmove with
    | expand hmode _ _ => exact .choose hmode rfl rfl
    | giveUp hmode => exact .settle hmode (by simp) rfl
    | unmatch hmode hhistory => exact .undo hmode hmode hhistory
    | replace hmode hhistory _ => exact .replace (Nat.lt_succ_self _) hmode rfl hhistory rfl
    | drop hmode hhistory _ => exact .undo hmode hmode hhistory
  | look seen hmove =>
    cases turn_of_move hmove with
    | finish hmode => cases seen <;> exact .settle hmode (by simp [finish]) rfl
    | matchFront hmode _ =>
      unfold matchFront
      split
      · exact .choose hmode hmode rfl
      · exact .settle hmode (by simp) rfl

/-- A move makes, takes back or replaces at most one choice. -/
theorem amends_of_follows (hfollows : (machine g start).Follows c c') : Amends c c'.history :=
  (proceeds_of_follows hfollows).amends

/-- Nothing else is left to be tried in place of a choice: it is a match, or an expansion by the
last alternative. -/
def Point.Last (g : Grammar V T) : Point V T → Prop
  | expand p rank => (g.alternatives p.head)[rank + 1]? = none
  | matched _ => True

/-- A choice that is taken back for good leaves the symbol in front for which it was made. -/
theorem Accounted.move_of_last (h : Accounted g start input c) {a : Point V T}
    {older : List (Point V T)} (hmode : c.mode = .backtracking) (hhistory : c.history = a :: older)
    (hlast : a.Last g) :
    ∃ rest, Replays g start input older (a.front :: rest) ∧
      (machine g start).move c =
        .enter ⟨.backtracking, (matchedWord older).length + 1, older, a.front :: rest⟩ := by
  obtain ⟨hreplays, hcursor⟩ := h
  obtain ⟨mode, cursor, history, symbols⟩ := c
  dsimp only at hmode hhistory hreplays hcursor
  subst hmode hhistory hcursor
  cases a with
  | matched t =>
    refine ⟨symbols, hreplays.of_matched.2, ?_⟩
    rw [matchedWord_matched, List.length_append, List.length_singleton]
    exact move_matched g start _ older symbols t
  | expand p rank =>
    obtain ⟨_, rest, rfl, hfront⟩ := hreplays.of_expand
    have hnone : (g.alternatives p.head)[rank + 1]? = none := hlast
    have hmove := move_expanded g start ((matchedWord older).length + 1) older rest p rank
    rw [hnone] at hmove
    rw [matchedWord_expand]
    exact ⟨rest, hfront, hmove⟩

/-- In every configuration of every run, in whatever mode, the cursor stands behind the terminals
matched, which are the first of the input; each expansion is by the alternative of its rank; and the
expansions rewrite the start to the terminals matched and the frontier. So an expansion that is
undone has its body in front of the frontier, whole; a choice that is taken back for good brings back
the frontier, the history and the cursor of the configuration in which the run made it; and the
cursor never falls below 1. -/
theorem history_accounts_exactly (g : Grammar V T) (start : V) (input : Input V T) (sink : Sink)
    {moves : Nat} {c : Config V T} (h : (machine g start).Visits input sink moves c) :
    (c.cursor = (matchedWord c.history).length + 1 ∧
      input.source.Begins input.isTerminal (matchedWord c.history) ∧
      (∀ p rank, .expand p rank ∈ c.history → (g.alternatives p.head)[rank]? = some p) ∧
      g.LeftParse (derivation c.history) [.nonterminal start]
        ((matchedWord c.history).map .terminal ++ c.symbols)) ∧
    (∀ p rank older, c.mode = .backtracking → c.history = .expand p rank :: older →
      p.body.length ≤ c.symbols.length ∧ c.symbols.take p.body.length = p.body) ∧
    (∀ a older, c.mode = .backtracking → c.history = a :: older → a.Last g →
      ∃ c₀ rest, (machine g start).Chose input sink moves older c₀ ∧
        c₀.symbols = a.front :: rest ∧
          (machine g start).move c = .enter { c₀ with mode := .backtracking }) ∧
    1 ≤ c.cursor := by
  have hkeep := invariant_accounted g start input
  obtain ⟨_, hc⟩ := hkeep.visits h
  refine ⟨⟨hc.cursor, hc.replays.begins, fun p rank hp => hc.replays.rank_eq hp,
    hc.replays.leftParse⟩, ?_, ?_, ?_⟩
  · intro p rank older _ hhistory
    have hreplays := hc.replays
    rw [hhistory] at hreplays
    obtain ⟨_, rest, hfrontier, _⟩ := hreplays.of_expand
    rw [hfrontier]
    exact ⟨by simp, List.take_left⟩
  · intro a older hmode hhistory hlast
    obtain ⟨rest, hreplays, hmove⟩ := hc.move_of_last hmode hhistory hlast
    obtain ⟨c₀, hchose, hc₀⟩ := hkeep.exists_chose rfl (fun _ _ => amends_of_follows) h hhistory
    have hsymbols : c₀.symbols = a.front :: rest :=
      (hchose.history ▸ hc₀.replays).unique hreplays
    refine ⟨c₀, rest, hchose, hsymbols, ?_⟩
    rw [hmove, ← hsymbols, ← hchose.history, ← hc₀.cursor]
  · rw [hc.cursor]
    exact Nat.le_add_left 1 _

/-- On `aba`, the expansion of the inner `S` by its empty body is taken back for good behind the
first `a`. -/
theorem history_accounts_exactly_aba :
    ∃ c older, (machine optionalEnds 'S').Visits
        ⟨.ofList (['a', 'b', 'a'].map .terminal), optionalEnds.isTerminal⟩ .silent 12 c ∧
      c.mode = .backtracking ∧ c.history = .expand ⟨⟨'S', []⟩, 2⟩ 1 :: older ∧
      (Point.expand ⟨⟨'S', []⟩, 2⟩ 1 : Point Char Char).Last optionalEnds ∧
      matchedWord c.history = ['a'] ∧ c.cursor = 2 ∧
      optionalEnds.LeftParse [1, 2] [.nonterminal 'S'] [.terminal 'a', .nonterminal 'E'] ∧
      ∃ c₀ rest, (machine optionalEnds 'S').Chose
          ⟨.ofList (['a', 'b', 'a'].map .terminal), optionalEnds.isTerminal⟩ .silent 12 older c₀ ∧
        c₀.symbols = .nonterminal 'S' :: rest ∧
          (machine optionalEnds 'S').move c = .enter { c₀ with mode := .backtracking } := by
  have hvisits : ∃ c older, (machine optionalEnds 'S').Visits
        ⟨.ofList (['a', 'b', 'a'].map .terminal), optionalEnds.isTerminal⟩ .silent 12 c ∧
      c.mode = .backtracking ∧ c.history = .expand ⟨⟨'S', []⟩, 2⟩ 1 :: older ∧
      matchedWord c.history = ['a'] ∧ derivation c.history = [1, 2] ∧
      c.symbols = [.nonterminal 'E'] := ⟨_, _, ⟨_, _, rfl⟩, rfl, rfl, rfl, rfl, rfl⟩
  obtain ⟨c, older, h, hmode, hhistory, hmatched, hderivation, hsymbols⟩ := hvisits
  have hlast : (Point.expand ⟨⟨'S', []⟩, 2⟩ 1 : Point Char Char).Last optionalEnds := by rfl
  obtain ⟨⟨hcursor, _, _, hparse⟩, _, hrestores, _⟩ := history_accounts_exactly _ _ _ _ h
  rw [hderivation, hmatched, hsymbols] at hparse
  rw [hmatched] at hcursor
  exact ⟨c, older, h, hmode, hhistory, hlast, hmatched, hcursor, hparse,
    hrestores _ older hmode hhistory hlast⟩

end ContextFree.TopDown
