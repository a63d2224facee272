import ContextFree.Machine.Input

namespace ContextFree

variable {V T : Type}

namespace Source

/-- Some request brings an end, a nonterminal or a terminal outside the alphabet. -/
def Stops (source : Source V T) (isTerminal : T → Bool) : Prop :=
  ∃ n, source n = none ∨ (∃ v, source n = some (.nonterminal v)) ∨
    ∃ t, source n = some (.terminal t) ∧ isTerminal t = false

theorem ofList_apply (symbols : List (Symbol V T)) (n : Nat) : ofList symbols n = symbols[n]? := by
  rw [ofList, ofAnswers]
  cases h : symbols[n]? <;> simp [h]

end Source

namespace Input

/-- What a request brings: an end, a terminal of the alphabet, or a fault. -/
def answer (input : Input V T) (n : Nat) : Option (Except (InputFault V T) T) :=
  match input.source n with
  | none => none
  | some (.nonterminal v) => some (.error (.notATerminal (n + 1) v))
  | some (.terminal t) =>
    if input.isTerminal t then some (.ok t) else some (.error (.unknownTerminal (n + 1) t))

theorem answer_eq_none {input : Input V T} {n : Nat} :
    input.answer n = none ↔ input.source n = none := by
  unfold answer
  split
  · rename_i hs
    simp [hs]
  · rename_i hs
    simp [hs]
  · rename_i hs
    split <;> simp [hs]

theorem isSome_of_answer {input : Input V T} {n : Nat} {found : Except (InputFault V T) T}
    (h : input.answer n = some found) : (input.source n).isSome := by
  rw [Option.isSome_iff_ne_none]
  intro hs
  rw [answer_eq_none.mpr hs] at h
  cases h

theorem answer_eq_ok {input : Input V T} {n : Nat} {t : T} :
    input.answer n = some (.ok t) ↔
      input.source n = some (.terminal t) ∧ input.isTerminal t := by
  unfold answer
  split
  · rename_i hs
    simp [hs]
  · rename_i hs
    simp [hs]
  · rename_i s hs
    rw [hs]
    split <;> grind

theorem source_of_answer {input : Input V T} {n : Nat} {t : T}
    (h : input.answer n = some (.ok t)) : input.source n = some (.terminal t) :=
  (answer_eq_ok.mp h).1

/-- The input brings the terminals of a word, and then it ends or has a fault. -/
structure Stops (input : Input V T) (word : List T) (fault : Option (InputFault V T)) : Prop where
  terminals : ∀ i t, word[i]? = some t → input.answer i = some (.ok t)
  stop : input.answer word.length = fault.map .error

section Unique

variable {input : Input V T} {word word' : List T} {fault fault' : Option (InputFault V T)}

theorem Stops.length_le (h : input.Stops word fault) (h' : input.Stops word' fault') :
    word.length ≤ word'.length := by
  apply Nat.le_of_not_lt
  intro hlt
  have ha := h.terminals word'.length _ (List.getElem?_eq_getElem hlt)
  rw [h'.stop] at ha
  cases fault' <;> cases ha

/-- An input stops in one way only. -/
theorem Stops.unique (h : input.Stops word fault) (h' : input.Stops word' fault') :
    word = word' ∧ fault = fault' := by
  have hlength := Nat.le_antisymm (h.length_le h') (h'.length_le h)
  have hword : word = word' := by
    apply List.ext_getElem hlength
    intro i hi hi'
    have ha := h.terminals i _ (List.getElem?_eq_getElem hi)
    rw [h'.terminals i _ (List.getElem?_eq_getElem hi')] at ha
    simpa using ha.symm
  have hstop := h.stop
  rw [hlength, h'.stop] at hstop
  refine ⟨hword, ?_⟩
  cases fault <;> cases fault' <;> simp_all

end Unique

/-- An input stops if some request does not bring a terminal of the alphabet. -/
theorem exists_stops_of_answer {input : Input V T} {n : Nat}
    (hn : ∀ t, input.answer n ≠ some (.ok t)) : ∃ word fault, input.Stops word fault := by
  have hread : ∀ n, (∃ word fault, input.Stops word fault) ∨
      ∃ word : List T, word.length = n ∧
        ∀ i t, word[i]? = some t → input.answer i = some (.ok t) := by
    intro n
    induction n with
    | zero => exact .inr ⟨[], rfl, by simp⟩
    | succ n ih =>
      rcases ih with hstops | ⟨word, rfl, hword⟩
      · exact .inl hstops
      · cases ha : input.answer word.length with
        | none => exact .inl ⟨word, none, hword, ha⟩
        | some found =>
          cases found with
          | error f => exact .inl ⟨word, some f, hword, ha⟩
          | ok t =>
            refine .inr ⟨word ++ [t], by simp, ?_⟩
            intro i s hs
            rcases Nat.lt_trichotomy i word.length with hi | rfl | hi
            · rw [List.getElem?_append_left hi] at hs
              exact hword i s hs
            · rw [List.getElem?_concat_length] at hs
              cases hs
              exact ha
            · rw [List.getElem?_eq_none (by simp; omega)] at hs
              cases hs
  rcases hread (n + 1) with hstops | ⟨word, hlength, hword⟩
  · exact hstops
  · have hlt : n < word.length := by omega
    exact False.elim (hn _ (hword n _ (List.getElem?_eq_getElem hlt)))

theorem exists_stops {source : Source V T} {isTerminal : T → Bool} (h : source.Stops isTerminal) :
    ∃ word fault, (⟨source, isTerminal⟩ : Input V T).Stops word fault := by
  obtain ⟨n, hn⟩ := h
  refine exists_stops_of_answer (n := n) fun t ht => ?_
  rcases hn with hn | ⟨v, hn⟩ | ⟨s, hn, hs⟩
  · simp [answer, hn] at ht
  · simp [answer, hn] at ht
  · simp [answer, hn, hs] at ht

/-- A list of terminals of the alphabet ends without a fault. -/
theorem stops_ofList (word : List T) {isTerminal : T → Bool} (h : ∀ t ∈ word, isTerminal t) :
    (⟨.ofList (word.map .terminal), isTerminal⟩ : Input V T).Stops word none where
  terminals := by
    intro i t ht
    simp [answer, Source.ofList_apply, ht, h t (List.mem_of_getElem? ht)]
  stop := by simp [answer, Source.ofList_apply]

/-- What can be seen at a place of an input that stops: a terminal or the end, or nothing behind the
terminals of an input with a fault. -/
def sight (word : List T) (fault : Option (InputFault V T)) (i : Nat) : Option (Option T) :=
  if i < word.length ∨ fault.isNone then some word[i]? else none

theorem sight_eq_some {word : List T} {fault : Option (InputFault V T)} {i : Nat}
    {seen : Option T} :
    sight word fault i = some seen ↔ (i < word.length ∨ fault.isNone) ∧ word[i]? = seen := by
  unfold sight
  rw [Option.ite_none_right_eq_some, Option.some.injEq]

theorem sight_of_getElem? {word : List T} {fault : Option (InputFault V T)} {i : Nat} {t : T}
    (h : word[i]? = some t) : sight word fault i = some (some t) :=
  sight_eq_some.mpr ⟨.inl (List.getElem?_eq_some_iff.mp h).1, h⟩

theorem sight_eq_some_none {word : List T} {fault : Option (InputFault V T)} {i : Nat} :
    sight word fault i = some none ↔ fault = none ∧ word.length ≤ i := by
  rw [sight_eq_some, List.getElem?_eq_none_iff, Option.isNone_iff_eq_none]
  constructor
  · intro h
    rcases h with ⟨hlt | hf, hle⟩
    · omega
    · exact ⟨hf, hle⟩
  · intro h
    obtain ⟨hf, hle⟩ := h
    exact ⟨.inr hf, hle⟩

theorem sight_eq_none {word : List T} {fault : Option (InputFault V T)} {i : Nat} :
    sight word fault i = none ↔ ∃ f, fault = some f ∧ word.length ≤ i := by
  cases fault with
  | none => simp [sight]
  | some f => simp [sight]

end Input

namespace Reader

/-- A reader that has met no fault holds what its requests have brought. -/
structure Live (input : Input V T) (r : Reader V T) : Prop where
  taken : r.taken = r.buffer.size
  buffer : ∀ i t, r.buffer[i]? = some t → input.answer i = some (.ok t)
  status : r.status = .ready ∨ r.status = .ended ∧ input.answer r.buffer.size = none

theorem live_start (input : Input V T) : (start : Reader V T).Live input :=
  ⟨rfl, by simp [start], .inl rfl⟩

variable {input : Input V T} {r : Reader V T}

theorem Live.not_failed (h : r.Live input) (f : InputFault V T) : r.status ≠ .failed f := by
  rcases h.status with hs | ⟨hs, _⟩ <;> simp [hs]

theorem Live.answer_of_ended (h : r.Live input) (hr : r.status = .ended) :
    input.answer r.buffer.size = none := by
  rcases h.status with hready | ⟨_, ha⟩
  · rw [hr] at hready
    cases hready
  · exact ha

theorem pull_not_ready (hr : r.status ≠ .ready) : r.pull input = r := by
  unfold pull
  split
  · contradiction
  · rfl

theorem pulls_not_ready (hr : r.status ≠ .ready) (n : Nat) : r.pulls input n = r := by
  induction n with
  | zero => rfl
  | succ n ih => rw [pulls, pull_not_ready hr, ih]

/-- A request for a terminal of the alphabet puts it into the buffer. -/
theorem Live.pull_ok (h : r.Live input) (hr : r.status = .ready) {t : T}
    (ha : input.answer r.buffer.size = some (.ok t)) :
    (r.pull input).Live input ∧ (r.pull input).status = .ready ∧
      (r.pull input).buffer = r.buffer.push t := by
  have hp : r.pull input = { r with buffer := r.buffer.push t, taken := r.taken + 1 } := by
    obtain ⟨hs, hterminal⟩ := Input.answer_eq_ok.mp ha
    rw [pull, hr, h.taken]
    simp only [hs, hterminal, if_true]
  rw [hp]
  refine ⟨⟨by simp [h.taken], ?_, .inl hr⟩, hr, rfl⟩
  intro i s hs
  rw [Array.getElem?_push] at hs
  split at hs
  · rename_i hi
    cases hs
    rw [hi]
    exact ha
  · exact h.buffer i s hs

/-- A request that brings an end or a fault is remembered. -/
theorem Live.pull_stop (h : r.Live input) (hr : r.status = .ready)
    {fault : Option (InputFault V T)} (ha : input.answer r.buffer.size = fault.map .error) :
    (r.pull input).buffer = r.buffer ∧
      match fault with
      | none => (r.pull input).Live input ∧ (r.pull input).status = .ended
      | some f => (r.pull input).status = .failed f := by
  unfold Input.answer at ha
  unfold pull
  rw [hr, h.taken]
  cases fault with
  | none =>
    have hnone : input.source r.buffer.size = none := by
      split at ha
      · assumption
      · simp at ha
      · split at ha <;> simp at ha
    rw [hnone]
    exact ⟨rfl, ⟨rfl, h.buffer, .inr ⟨rfl, by simp [Input.answer, hnone]⟩⟩, rfl⟩
  | some f =>
    split at ha
    · simp at ha
    · simp_all
    · split at ha <;> simp_all

variable {word : List T} {fault : Option (InputFault V T)}

theorem Live.size_le (h : r.Live input) (hi : input.Stops word fault) :
    r.buffer.size ≤ word.length := by
  apply Nat.le_of_not_lt
  intro hin
  have ha := h.buffer word.length _ (Array.getElem?_eq_getElem hin)
  rw [hi.stop] at ha
  cases fault <;> simp at ha

theorem Live.answer_size (h : r.Live input) (hi : input.Stops word fault) :
    (∃ t, input.answer r.buffer.size = some (.ok t) ∧ r.buffer.size < word.length) ∨
      r.buffer.size = word.length ∧ input.answer r.buffer.size = fault.map .error := by
  rcases Nat.lt_or_eq_of_le (h.size_le hi) with hlt | heq
  · exact .inl ⟨word[r.buffer.size], hi.terminals _ _ (List.getElem?_eq_getElem hlt), hlt⟩
  · exact .inr ⟨heq, heq ▸ hi.stop⟩

/-- Requests up to the end of the word fill the buffer. -/
theorem Live.pulls_ok (h : r.Live input) (hi : input.Stops word fault) (hr : r.status = .ready)
    (n : Nat) (hn : r.buffer.size + n ≤ word.length) :
    (r.pulls input n).Live input ∧ (r.pulls input n).buffer.size = r.buffer.size + n := by
  induction n generalizing r with
  | zero => exact ⟨h, rfl⟩
  | succ n ih =>
    rcases h.answer_size hi with ⟨t, ha, _⟩ | ⟨heq, _⟩
    · obtain ⟨hlive, hready, hbuffer⟩ := h.pull_ok hr ha
      have hsize : (r.pull input).buffer.size = r.buffer.size + 1 := by simp [hbuffer]
      obtain ⟨hlive', hsize'⟩ := ih hlive hready (by omega)
      exact ⟨hlive', by rw [pulls, hsize', hsize]; omega⟩
    · omega

/-- Requests that go beyond the word meet its end or its fault. -/
theorem Live.pulls_stop (h : r.Live input) (hi : input.Stops word fault) (hr : r.status = .ready)
    (n : Nat) (hn : word.length < r.buffer.size + n) :
    match fault with
    | none => (r.pulls input n).Live input
    | some f => (r.pulls input n).status = .failed f := by
  induction n generalizing r with
  | zero => have := h.size_le hi; omega
  | succ n ih =>
    rcases h.answer_size hi with ⟨t, ha, _⟩ | ⟨_, ha⟩
    · obtain ⟨hlive, hready, hbuffer⟩ := h.pull_ok hr ha
      exact ih hlive hready (by simp [hbuffer]; omega)
    · obtain ⟨_, hstop⟩ := h.pull_stop hr ha
      rw [pulls]
      cases fault with
      | none =>
        rw [pulls_not_ready (by simp [hstop.2])]
        exact hstop.1
      | some f =>
        rw [pulls_not_ready (by simp [hstop])]
        exact hstop

theorem Live.seen_eq (h : r.Live input) (hi : input.Stops word fault) {i : Nat}
    (hsize : i < r.buffer.size ∨ word.length ≤ i) : r.seen (i + 1) = word[i]? := by
  unfold seen
  rw [Nat.add_sub_cancel]
  have hle := h.size_le hi
  by_cases hlt : i < r.buffer.size
  · have ha := h.buffer i _ (Array.getElem?_eq_getElem hlt)
    rw [hi.terminals i _ (List.getElem?_eq_getElem (by omega))] at ha
    rw [Array.getElem?_eq_getElem hlt, List.getElem?_eq_getElem (by omega)]
    simpa using ha.symm
  · rw [Array.getElem?_eq_none (by omega), List.getElem?_eq_none (by omega)]

/-- A reader stops being ready only at an end of the input. -/
theorem Live.of_not_ready (h : r.Live input) (hi : input.Stops word fault)
    (hr : r.status ≠ .ready) : r.buffer.size = word.length ∧ fault = none := by
  rcases h.status with hready | ⟨_, hend⟩
  · exact False.elim (hr hready)
  · rcases h.answer_size hi with ⟨t, ha, _⟩ | ⟨hsize, ha⟩
    · rw [hend] at ha
      cases ha
    · rw [hend] at ha
      exact ⟨hsize, Option.map_eq_none_iff.mp ha.symm⟩

/-- A look at a place before which the input has no fault shows what is there. -/
theorem Live.look (h : r.Live input) (hi : input.Stops word fault) {i : Nat} {seen : Option T}
    (hs : Input.sight word fault i = some seen) :
    (r.readTo input (i + 1)).Live input ∧ (r.readTo input (i + 1)).seen (i + 1) = seen := by
  obtain ⟨hin, rfl⟩ := Input.sight_eq_some.mp hs
  have hle := h.size_le hi
  suffices hlive : (r.readTo input (i + 1)).Live input ∧
      (i < (r.readTo input (i + 1)).buffer.size ∨ word.length ≤ i) from
    ⟨hlive.1, hlive.1.seen_eq hi hlive.2⟩
  unfold readTo
  by_cases hr : r.status = .ready
  · by_cases hlt : i < word.length
    · obtain ⟨hlive, hsize⟩ := h.pulls_ok hi hr (i + 1 - r.buffer.size) (by omega)
      exact ⟨hlive, .inl (by omega)⟩
    · have hstop := h.pulls_stop hi hr (i + 1 - r.buffer.size) (by omega)
      cases fault with
      | none => exact ⟨hstop, .inr (by omega)⟩
      | some f => simp [hlt] at hin
  · have hsize := (h.of_not_ready hi hr).1
    rw [pulls_not_ready hr]
    exact ⟨h, by omega⟩

/-- A look beyond the terminals of an input with a fault meets the fault. -/
theorem Live.look_fault (h : r.Live input) (hi : input.Stops word fault) {i : Nat}
    (hs : Input.sight word fault i = none) :
    ∃ f, fault = some f ∧ (r.readTo input (i + 1)).status = .failed f := by
  obtain ⟨f, rfl, hlength⟩ := Input.sight_eq_none.mp hs
  have hle := h.size_le hi
  by_cases hr : r.status = .ready
  · exact ⟨f, rfl, h.pulls_stop hi hr (i + 1 - r.buffer.size) (by omega)⟩
  · cases (h.of_not_ready hi hr).2

end Reader

end ContextFree
