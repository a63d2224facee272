import ContextFree.Proofs.Requests
import ContextFree.Proofs.Result

namespace ContextFree

variable {A N P V T : Type}

namespace Source

/-- A source brings the terminals of a word, and then an end. -/
def Brings (source : Source V T) (word : List T) : Prop :=
  ∀ i ≤ word.length, source i = word[i]?.map .terminal

theorem Brings.stops {source : Source V T} {word : List T} (h : source.Brings word) :
    (⟨source, fun _ => true⟩ : Input V T).Stops word none where
  terminals := by
    intro i t ht
    have hs := h i (Nat.le_of_lt (List.getElem?_eq_some_iff.mp ht).1)
    rw [ht] at hs
    simp only [Input.answer, hs, Option.map_some, if_true]
  stop := by
    have hs := h word.length (Nat.le_refl _)
    rw [List.getElem?_eq_none (Nat.le_refl _)] at hs
    exact Input.answer_eq_none.mpr hs

theorem Brings.unique {source : Source V T} {word word' : List T} (h : source.Brings word)
    (h' : source.Brings word') : word = word' :=
  (h.stops.unique h'.stops).1

/-- A source begins with the terminals of a word, which all belong to the alphabet. -/
def Begins (source : Source V T) (isTerminal : T → Bool) (word : List T) : Prop :=
  ∀ i t, word[i]? = some t → source i = some (.terminal t) ∧ isTerminal t

/-- The source with a nonterminal in place of all that it brings from a request on. -/
def spoilt (source : Source V T) (n : Nat) (v : V) : Source V T :=
  fun i => if i < n then source i else some (.nonterminal v)

theorem Begins.take {source : Source V T} {isTerminal : T → Bool} {word : List T}
    (h : source.Begins isTerminal word) (n : Nat) : source.Begins isTerminal (word.take n) := by
  intro i t ht
  rw [List.getElem?_take] at ht
  split at ht
  · exact h i t ht
  · cases ht

/-- Of two words that a source begins with, the shorter one begins the longer one. -/
theorem Begins.eq_take {source : Source V T} {isTerminal : T → Bool} {word word' : List T}
    (h : source.Begins isTerminal word) (h' : source.Begins isTerminal word')
    (hle : word'.length ≤ word.length) : word' = word.take word'.length := by
  apply List.ext_getElem (by simp [hle])
  intro i hi _
  have hword := (h i _ (List.getElem?_eq_getElem (Nat.lt_of_lt_of_le hi hle))).1
  rw [(h' i _ (List.getElem?_eq_getElem hi)).1] at hword
  simpa using hword

/-- A source that has a nonterminal behind the terminals that it begins with stops there. -/
theorem Begins.stops_spoilt {source : Source V T} {isTerminal : T → Bool} {word : List T}
    (h : source.Begins isTerminal word) (v : V) :
    (⟨source.spoilt word.length v, isTerminal⟩ : Input V T).Stops word
      (some (.notATerminal (word.length + 1) v)) where
  terminals := by
    intro i t ht
    obtain ⟨hsource, hterminal⟩ := h i t ht
    have hlt := (List.getElem?_eq_some_iff.mp ht).1
    simp only [Input.answer, spoilt, if_pos hlt, hsource, hterminal, if_true]
  stop := by simp only [Input.answer, spoilt, Nat.lt_irrefl, if_false, Option.map_some]

end Source

theorem Input.Stops.begins {source : Source V T} {isTerminal : T → Bool} {word : List T}
    {fault : Option (InputFault V T)}
    (h : (⟨source, isTerminal⟩ : Input V T).Stops word fault) : source.Begins isTerminal word :=
  fun i t ht => answer_eq_ok.mp (h.terminals i t ht)

theorem Input.Stops.brings {input : Input V T} {word : List T} (h : input.Stops word none) :
    input.source.Brings word := by
  intro i hle
  rcases Nat.lt_or_eq_of_le hle with hlt | rfl
  · rw [List.getElem?_eq_getElem hlt]
    exact source_of_answer (h.terminals i _ (List.getElem?_eq_getElem hlt))
  · rw [List.getElem?_eq_none (Nat.le_refl _)]
    exact answer_eq_none.mp h.stop

/-- The number of symbols of an input up to its end or up to its fault, which counts. -/
def Input.extent (word : List T) (fault : Option (InputFault V T)) : Nat :=
  word.length + if fault.isSome then 1 else 0

namespace Reader

variable {input : Input V T} {r : Reader V T} {word : List T} {fault : Option (InputFault V T)}

theorem Live.stops_of_ended (h : r.Live input) (hr : r.status = .ended) :
    input.Stops r.buffer.toList none where
  terminals := by
    intro i t ht
    exact h.buffer i t (by rw [← Array.getElem?_toList]; exact ht)
  stop := h.answer_of_ended hr

theorem Failed.stops {f : InputFault V T} (h : r.Failed input f) :
    input.Stops r.buffer.toList (some f) where
  terminals := by
    intro i t ht
    exact h.buffer i t (by rw [← Array.getElem?_toList]; exact ht)
  stop := h.fault

theorem Live.taken_le (h : r.Live input) (hi : input.Stops word fault) :
    r.taken ≤ Input.extent word fault := by
  rw [h.taken]
  exact Nat.le_trans (h.size_le hi) (Nat.le_add_right ..)

theorem Live.taken_of_ended (h : r.Live input) (hi : input.Stops word fault)
    (hr : r.status = .ended) : r.taken = Input.extent word fault := by
  obtain ⟨rfl, rfl⟩ := hi.unique (h.stops_of_ended hr)
  exact h.taken

theorem Failed.taken_eq {f : InputFault V T} (h : r.Failed input f)
    (hi : input.Stops word fault) : r.taken = Input.extent word fault := by
  obtain ⟨rfl, rfl⟩ := hi.unique h.stops
  exact h.taken

theorem Live.begins {source : Source V T} {isTerminal : T → Bool}
    (h : r.Live ⟨source, isTerminal⟩) : source.Begins isTerminal r.buffer.toList := by
  intro i t ht
  rw [Array.getElem?_toList] at ht
  exact Input.answer_eq_ok.mp (h.buffer i t ht)

theorem Failed.begins {source : Source V T} {isTerminal : T → Bool} {f : InputFault V T}
    (h : r.Failed ⟨source, isTerminal⟩ f) : source.Begins isTerminal r.buffer.toList := by
  intro i t ht
  rw [Array.getElem?_toList] at ht
  exact Input.answer_eq_ok.mp (h.buffer i t ht)

/-- A source that has a nonterminal behind what a reader holds stops there. -/
theorem Live.stops_spoilt {source : Source V T} {isTerminal : T → Bool}
    (h : r.Live ⟨source, isTerminal⟩) (v : V) :
    (⟨source.spoilt r.taken v, isTerminal⟩ : Input V T).Stops r.buffer.toList
      (some (.notATerminal (r.taken + 1) v)) := by
  have hlength : r.taken = r.buffer.toList.length := h.taken
  rw [hlength]
  exact h.begins.stops_spoilt v

end Reader

namespace Machine

variable {m : Machine P V T} {input : Input V T} {run : Run P V T} {word : List T}
  {fault : Option (InputFault V T)}

/-- No run reads beyond the end or the fault of its input. -/
theorem taken_le_extent (h : run.Sound input) (hi : input.Stops word fault) :
    run.reader.taken ≤ Input.extent word fault := by
  cases run with
  | running s =>
    have hlive : s.reader.Live input := h
    exact hlive.taken_le hi
  | halted outcome r sink =>
    rcases h with ⟨hlive, _⟩ | ⟨f, hfailed, _⟩
    · exact hlive.taken_le hi
    · exact Nat.le_of_eq (hfailed.taken_eq hi)

/-- A run that has not met an end goes the same way on every source that begins with the symbols
taken. -/
theorem run_of_agree {source source' : Source V T} {isTerminal : T → Bool} {moves : Nat}
    {outcome : Except (ParseError V T) (List Nat)} {r : Reader V T}
    (hrun : m.run ⟨source, isTerminal⟩ moves (m.start .silent) = .halted outcome r .silent)
    (hended : r.status ≠ .ended) (hsame : ∀ i < r.taken, source' i = source i) :
    m.run ⟨source', isTerminal⟩ moves (m.start .silent) = .halted outcome r .silent := by
  rw [← hrun]
  apply run_congr
  rw [hrun, Run.reader, Reader.requests_of_not_ended hended]
  exact hsame

/-- A run that halts without a fault, and as it halts on no input with a fault, has met an end:
otherwise it would halt in the same way if a nonterminal followed what it has read. -/
theorem ended_of_halted {source : Source V T} {isTerminal : T → Bool} {moves : Nat}
    {outcome : Except (ParseError V T) (List Nat)} {r : Reader V T} (v : V)
    (hrun : m.run ⟨source, isTerminal⟩ moves (m.start .silent) = .halted outcome r .silent)
    (hlive : r.Live ⟨source, isTerminal⟩)
    (hfault : ∀ (source' : Source V T) word f,
      (⟨source', isTerminal⟩ : Input V T).Stops word (some f) →
        ¬ m.Halts ⟨source', isTerminal⟩ outcome) : r.status = .ended := by
  refine Classical.byContradiction fun hended => ?_
  apply hfault _ _ _ (hlive.stops_spoilt v)
  exact ⟨moves, r, run_of_agree hrun hended fun i hi => if_pos hi⟩

/-- On an input with a fault nothing is found where no solution exists. -/
theorem Result.not_halts_ok {before : A → A → Prop} {solves : List A → Prop}
    {list : List A → List Nat} (h : m.Result input fault before solves list)
    (hnone : ∀ path, ¬ solves path) (numbers : List Nat) : ¬ m.Halts input (.ok numbers) := by
  intro hok
  cases h with
  | found path hsolves _ _ => exact hnone path hsolves
  | exhausted _ hhalts => cases hok.unique hhalts
  | blocked f _ hhalts => cases hok.unique hhalts

/-- A search without a solution that would be blocked somewhere is blocked. -/
theorem halts_of_blocks {before : A → A → Prop} {b : Backtracker A N (Configuration P V T)}
    (law : b.Lawful) {n : N} (hacc : Acc b.search.Child n)
    (hsorted : ∀ n choices blocked, b.search n = .options choices blocked →
      choices.Pairwise fun x y => before x.1 y.1)
    (hstep : b.step = m.Moves input) (hinitial : b.enter n [] = m.initial)
    (hbreaks : ∀ c, b.breaks c → ∃ f, fault = some f ∧ m.Breaks input f c)
    (hnone : ∀ path, ¬ b.search.Solves n path) (hblocks : b.search.Blocks n) :
    ∃ f, fault = some f ∧ m.Halts input (.error (.badInput f)) := by
  have hends := law.ends hsorted hacc []
  rw [hinitial] at hends
  cases hends with
  | found path e hsolves _ _ _ => exact False.elim (hnone path hsolves)
  | exhausted _ hfree _ => exact False.elim (hfree hblocks)
  | blocked y _ hreach hy =>
    obtain ⟨f, hf, hb⟩ := hbreaks y hy
    rw [hstep] at hreach
    exact ⟨f, hf, .of_breaks hreach hb⟩

/-- A search without a solution that is blocked nowhere is exhausted. -/
theorem halts_of_not_blocks {before : A → A → Prop} {b : Backtracker A N (Configuration P V T)}
    (law : b.Lawful) {n : N} (hacc : Acc b.search.Child n)
    (hsorted : ∀ n choices blocked, b.search n = .options choices blocked →
      choices.Pairwise fun x y => before x.1 y.1)
    (hstep : b.step = m.Moves input) (hinitial : b.enter n [] = m.initial)
    (hleave : m.move (b.leave n []) = .reject)
    (hnone : ∀ path, ¬ b.search.Solves n path) (hfree : ¬ b.search.Blocks n) :
    m.Halts input (.error .noDerivation) := by
  have hends := law.ends hsorted hacc []
  rw [hinitial] at hends
  cases hends with
  | found path e hsolves _ _ _ => exact False.elim (hnone path hsolves)
  | exhausted _ _ hreach =>
    rw [hstep] at hreach
    exact .of_reject hreach hleave
  | blocked y hblocks _ _ => exact False.elim (hfree hblocks)

end Machine

end ContextFree
