import ContextFree.Proofs.Transcript

namespace ContextFree.Command

/-- What the responses to all requests for one parse have in common. -/
structure Verdict where
  code : Nat
  errors : List String
  trace : List Char
  derivation : List Char
  tree : List Char

namespace Verdict

def success (trace : List Char) (derivation : List Nat) (tree : Tree String Char) : Verdict :=
  ⟨0, [], trace, Format.derivation derivation, Format.tree 0 tree⟩

def failure (errors : List String) (trace : List Char) : Verdict :=
  ⟨1, errors, trace, [], []⟩

/-- The response where the trace is asked for or not, and the tree is asked for or not. -/
def response (v : Verdict) (showTrace showTree : Bool) : Response :=
  ⟨v.code, v.errors, String.ofList ((if showTrace then v.trace else []) ++ v.derivation ++
    if showTree then v.tree else [])⟩

end Verdict

variable (readFile : String → Except String String) (path input : String) (strategy : Strategy)

/-- The file holds the text of a grammar that does not rule the strategy out, and the input can be
derived from its start. -/
def Accepted : Prop :=
  ∃ text g start, readFile path = .ok text ∧ Grammar.ofText text = .ok g ∧
    strategy.check g = .ok start ∧
    g.Derives [.nonterminal start] (input.toList.map .terminal)

/-- The verdict on an input, by how far the parse gets. The automaton is run without a trace, and
the trace shows the configurations that it passes through. -/
inductive Settles : Verdict → Prop
  | unread {cause : String} (hfile : readFile path = .error cause) :
      Settles (.failure ["failed to read grammar from " ++ path, cause] [])
  | malformed {text : String} {e : SyntaxError} (hfile : readFile path = .ok text)
      (htext : Grammar.ofText text = .error e) : Settles (.failure [e.message] [])
  | ruledOut {text : String} {g : Grammar String Char} {defect : Defect String}
      (hfile : readFile path = .ok text) (htext : Grammar.ofText text = .ok g)
      (hcheck : strategy.check g = .error defect) :
      Settles (.failure ["invalid grammar: " ++ defect.message, defect.message] [])
  | faulty {text start : String} {g : Grammar String Char} {f : InputFault String Char}
      {shown : List Char} (hfile : readFile path = .ok text) (htext : Grammar.ofText text = .ok g)
      (hcheck : strategy.check g = .ok start)
      (hhalts : strategy.Halts g start (.ofText input) (.error (.badInput f)))
      (hshows : strategy.Shows g start (.ofText input) shown) :
      Settles (.failure [f.message] shown)
  | underivable {text start : String} {g : Grammar String Char} {shown : List Char}
      (hfile : readFile path = .ok text) (htext : Grammar.ofText text = .ok g)
      (hcheck : strategy.check g = .ok start)
      (hhalts : strategy.Halts g start (.ofText input) (.error .noDerivation))
      (hshows : strategy.Shows g start (.ofText input) shown) :
      Settles (.failure ["no derivation of the input exists"] shown)
  | derived {text start : String} {g : Grammar String Char} {derivation : List Nat}
      {tree : Tree String Char} {shown : List Char} (hfile : readFile path = .ok text)
      (htext : Grammar.ofText text = .ok g) (hcheck : strategy.check g = .ok start)
      (hhalts : strategy.Halts g start (.ofText input) (.ok derivation))
      (hshows : strategy.Shows g start (.ofText input) shown)
      (htree : strategy.tree g derivation = .ok tree) :
      Settles (.success shown derivation tree)

variable {readFile path input strategy} {g : Grammar String Char} {start : String} {moves : Nat}
  {shown : List Char} {verdict : Verdict} (showTrace showTree : Bool)

theorem parseInput_error {e : ParseError String Char} {errors : List String}
    (h : strategy.Reports g (.ofText input) moves (.error e) shown)
    (herrors : errorChain e = errors) (more : Nat) :
    parseInput ⟨path, input, strategy, showTrace, showTree⟩ g (moves + more) =
      some ((Verdict.failure errors shown).response showTrace showTree) := by
  obtain ⟨taken, trace, htrace, hreport⟩ := h
  obtain ⟨hsilent, hnew⟩ := hreport more
  cases showTrace <;>
    simp [parseInput, hsilent, hnew, htrace, herrors, Verdict.response, Verdict.failure,
      Response.failure]

theorem parseInput_ok {derivation : List Nat} {tree : Tree String Char}
    (h : strategy.Reports g (.ofText input) moves (.ok derivation) shown)
    (htree : strategy.tree g derivation = .ok tree) (more : Nat) :
    parseInput ⟨path, input, strategy, showTrace, showTree⟩ g (moves + more) =
      some ((Verdict.success shown derivation tree).response showTrace showTree) := by
  obtain ⟨taken, trace, htrace, hreport⟩ := h
  obtain ⟨hsilent, hnew⟩ := hreport more
  cases showTrace <;> cases showTree <;>
    simp [parseInput, hsilent, hnew, htrace, derived, htree, derivationText_eq, Tree.text_eq,
      Verdict.response, Verdict.success, Response.success, String.append_assoc]

/-- A response stays the same with further moves. -/
theorem respond_add {a : Arguments} {response : Response}
    (h : respond readFile moves a = some response) (more : Nat) :
    respond readFile (moves + more) a = some response := by
  unfold respond at h ⊢
  cases hfile : readFile a.grammar with
  | error cause =>
    rw [hfile] at h
    exact h
  | ok text =>
    rw [hfile] at h
    cases htext : Grammar.ofText text with
    | error e => simpa only [htext] using h
    | ok g =>
      simp only [htext, parseInput, Option.map_eq_some_iff] at h ⊢
      obtain ⟨report, hreport, hresponse⟩ := h
      exact ⟨report, Strategy.parse_add hreport more, hresponse⟩

/-- With a grammar that is not ruled out, every input is settled, and the responses to all requests
for its parse have one verdict. -/
theorem exists_settles (input : String) {text : String} (hfile : readFile path = .ok text)
    (htext : Grammar.ofText text = .ok g) (hcheck : strategy.check g = .ok start) :
    ∃ verdict, Settles readFile path input strategy verdict ∧
      (verdict.code = 0 ↔ g.Derives [.nonterminal start] (input.toList.map .terminal)) ∧
      ∃ moves, ∀ showTrace showTree more,
        parseInput ⟨path, input, strategy, showTrace, showTree⟩ g (moves + more) =
          some (verdict.response showTrace showTree) := by
  obtain ⟨outcome, hhalts, hok⟩ := Strategy.exists_halts hcheck input.toList
  obtain ⟨shown, hshows, moves, hreports⟩ := hhalts.exists_reports hcheck
  rcases hhalts.cases with ⟨derivation, rfl⟩ | rfl | ⟨f, rfl⟩
  · obtain ⟨hderives, tree, htree⟩ := hhalts.derives hcheck
    refine ⟨_, .derived hfile htext hcheck hhalts hshows htree, ?_, moves, ?_⟩
    · simpa [Verdict.success] using hderives
    · exact fun showTrace showTree more => parseInput_ok showTrace showTree hreports htree more
  · refine ⟨_, .underivable hfile htext hcheck hhalts hshows, ?_, moves, ?_⟩
    · simpa [Verdict.failure] using hok
    · exact fun showTrace showTree more => parseInput_error showTrace showTree hreports rfl more
  · refine ⟨_, .faulty hfile htext hcheck hhalts hshows, ?_, moves, ?_⟩
    · simpa [Verdict.failure] using hok
    · exact fun showTrace showTree more => parseInput_error showTrace showTree hreports rfl more

/-- Every request for a parse is settled and answered, whatever the file is. -/
theorem exists_answer (readFile : String → Except String String) (path input : String)
    (strategy : Strategy) :
    ∃ verdict, Settles readFile path input strategy verdict ∧
      (verdict.code = 0 ↔ Accepted readFile path input strategy) ∧
      ∃ moves, ∀ showTrace showTree more,
        respond readFile (moves + more) ⟨path, input, strategy, showTrace, showTree⟩ =
          some (verdict.response showTrace showTree) := by
  cases hfile : readFile path with
  | error cause =>
    refine ⟨_, .unread hfile, ?_, 0, ?_⟩
    · simp [Verdict.failure, Accepted, hfile]
    · simp [respond, hfile, Verdict.failure, Verdict.response, Response.failure]
  | ok text =>
    cases htext : Grammar.ofText text with
    | error e =>
      refine ⟨_, .malformed hfile htext, ?_, 0, ?_⟩
      · simp [Verdict.failure, Accepted, hfile, htext]
      · simp [respond, hfile, htext, Verdict.failure, Verdict.response, Response.failure]
    | ok g =>
      cases hcheck : strategy.check g with
      | error defect =>
        refine ⟨_, .ruledOut hfile htext hcheck, ?_, 0, ?_⟩
        · simp [Verdict.failure, Accepted, hfile, htext, hcheck]
        · have hreports := Strategy.reports_of_defect hcheck (.ofText input) 0
          simp only [respond, hfile, htext]
          exact fun showTrace showTree more =>
            parseInput_error showTrace showTree hreports rfl more
      | ok start =>
        obtain ⟨verdict, hsettles, hcode, moves, hanswer⟩ :=
          exists_settles input hfile htext hcheck
        refine ⟨verdict, hsettles, ?_, moves, ?_⟩
        · simp [hcode, Accepted, hfile, htext, hcheck]
        · simpa only [respond, hfile, htext] using hanswer

theorem Settles.code (h : Settles readFile path input strategy verdict) :
    verdict.code = 0 ∨ verdict.code = 1 := by
  cases h with
  | derived _ _ _ _ _ _ => exact .inl rfl
  | unread _ => exact .inr rfl
  | malformed _ _ => exact .inr rfl
  | ruledOut _ _ _ => exact .inr rfl
  | faulty _ _ _ _ _ => exact .inr rfl
  | underivable _ _ _ _ _ => exact .inr rfl

/-- An input with a character outside the alphabet is not accepted. -/
theorem Accepted.isTerminal (h : Accepted readFile path input strategy) {text : String}
    (hfile : readFile path = .ok text) (htext : Grammar.ofText text = .ok g) :
    ∀ t ∈ input.toList, g.isTerminal t := by
  obtain ⟨text', g', start, hfile', htext', _, hderives⟩ := h
  cases hfile.symm.trans hfile'
  cases htext.symm.trans htext'
  exact hderives.isTerminal

/-- Every request for a parse is answered after some number of moves, whatever the file and the
input are. The responses with or without the trace, and with or without the tree, have one verdict:
they return the same code with the same errors, and the output is the trace, if asked for, then the
derivation, if there is one, then its tree, if asked for. The code is 0 if the input is accepted and
1 otherwise. No number of moves leads to another response. -/
theorem respond_exact (readFile : String → Except String String) (path input : String)
    (strategy : Strategy) :
    ∃ verdict, Settles readFile path input strategy verdict ∧
      (verdict.code = 0 ∨ verdict.code = 1) ∧
      (verdict.code = 0 ↔ Accepted readFile path input strategy) ∧
      (∀ text g t, readFile path = .ok text → Grammar.ofText text = .ok g → t ∈ input.toList →
        g.isTerminal t = false → verdict.code = 1) ∧
      (∃ moves, ∀ showTrace showTree more,
        respond readFile (moves + more) ⟨path, input, strategy, showTrace, showTree⟩ =
          some (verdict.response showTrace showTree)) ∧
      ∀ moves showTrace showTree response,
        respond readFile moves ⟨path, input, strategy, showTrace, showTree⟩ = some response →
          response = verdict.response showTrace showTree := by
  obtain ⟨verdict, hsettles, hcode, moves, hanswer⟩ := exists_answer readFile path input strategy
  refine ⟨verdict, hsettles, hsettles.code, hcode, ?_, ⟨moves, hanswer⟩, ?_⟩
  · intro text g t hfile htext ht hunknown
    refine hsettles.code.resolve_left fun hzero => ?_
    have hknown := (hcode.mp hzero).isTerminal hfile htext t ht
    rw [hunknown] at hknown
    cases hknown
  · intro moves' showTrace showTree response hresponse
    have hlater := respond_add hresponse moves
    rw [Nat.add_comm, hanswer] at hlater
    exact (Option.some.inj hlater).symm

/-- Any number of `t`s in front of an `s`. -/
def endedByS : String :=
  "<L> ->t<L>\n<L> ->s\n"

/-- The input `ts` is accepted, and `tx` is not. -/
theorem respond_exact_endedByS :
    (∃ verdict, Settles (fun _ => .ok endedByS) "g" "ts" .topDown verdict ∧ ∃ moves, ∀ more,
      respond (fun _ => .ok endedByS) (moves + more) ⟨"g", "ts", .topDown, false, false⟩ =
        some ⟨0, [], "[1, 2]\n"⟩ ∧
      respond (fun _ => .ok endedByS) (moves + more) ⟨"g", "ts", .topDown, false, true⟩ =
        some ⟨0, [], "[1, 2]\nL\n  t\n  L\n    s\n"⟩ ∧
      respond (fun _ => .ok endedByS) (moves + more) ⟨"g", "ts", .topDown, true, true⟩ =
        some ⟨0, [],
          "(q, 1, e, L$)\n|- (q, 1, L1, tL$)\n|- (q, 2, L1 t, L$)\n|- (q, 2, L1 t L1, tL$)\n" ++
          "|- (b, 2, L1 t L1, tL$)\n|- (q, 2, L1 t L2, s$)\n|- (q, 3, L1 t L2 s, $)\n" ++
          "|- (t, 3, L1 t L2 s, e)\n[1, 2]\nL\n  t\n  L\n    s\n"⟩) ∧
    (∃ verdict, Settles (fun _ => .ok endedByS) "g" "ts" .bottomUp verdict ∧ ∃ moves, ∀ more,
      respond (fun _ => .ok endedByS) (moves + more) ⟨"g", "ts", .bottomUp, true, true⟩ =
        some ⟨0, [],
          "(q, 1, $, e)\n|- (q, 2, $t, s)\n|- (q, 3, $ts, ss)\n|- (q, 3, $tL, 2ss)\n" ++
          "|- (q, 3, $L, 12ss)\n|- (t, 3, $L, 12ss)\n[1, 2]\nL\n  t\n  L\n    s\n"⟩) ∧
    ∃ verdict, Settles (fun _ => .ok endedByS) "g" "tx" .topDown verdict ∧ ∃ moves, ∀ more,
      respond (fun _ => .ok endedByS) (moves + more) ⟨"g", "tx", .topDown, true, true⟩ =
        some ⟨1, ["[ERROR] (2): input symbol `x` is not in the terminal alphabet"],
          "(q, 1, e, L$)\n|- (q, 1, L1, tL$)\n|- (q, 2, L1 t, L$)\n|- (q, 2, L1 t L1, tL$)\n"⟩ := by
  refine ⟨?_, ?_, ?_⟩
  · obtain ⟨verdict, hsettles, _, _, _, ⟨moves, hanswer⟩, honly⟩ :=
      respond_exact (fun _ => .ok endedByS) "g" "ts" .topDown
    refine ⟨verdict, hsettles, moves, fun more => ⟨?_, ?_, ?_⟩⟩
    · exact (hanswer _ _ more).trans (congrArg some (honly 10 _ _ _ (by decide +kernel)).symm)
    · exact (hanswer _ _ more).trans (congrArg some (honly 10 _ _ _ (by decide +kernel)).symm)
    · exact (hanswer _ _ more).trans (congrArg some (honly 10 _ _ _ (by decide +kernel)).symm)
  · obtain ⟨verdict, hsettles, _, _, _, ⟨moves, hanswer⟩, honly⟩ :=
      respond_exact (fun _ => .ok endedByS) "g" "ts" .bottomUp
    refine ⟨verdict, hsettles, moves, fun more => ?_⟩
    exact (hanswer _ _ more).trans (congrArg some (honly 10 _ _ _ (by decide +kernel)).symm)
  · obtain ⟨verdict, hsettles, _, _, _, ⟨moves, hanswer⟩, honly⟩ :=
      respond_exact (fun _ => .ok endedByS) "g" "tx" .topDown
    refine ⟨verdict, hsettles, moves, fun more => ?_⟩
    exact (hanswer _ _ more).trans (congrArg some (honly 10 _ _ _ (by decide +kernel)).symm)

-- A defect is the cause of the error that it leads to.
example : respond (fun _ => .ok "S->S") 0 ⟨"g", "s", .topDown, true, true⟩ =
    some ⟨1, ["invalid grammar: grammar is left-recursive: S -> S",
      "grammar is left-recursive: S -> S"], ""⟩ := by
  decide +kernel

end ContextFree.Command
