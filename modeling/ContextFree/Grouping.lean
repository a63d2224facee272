namespace ContextFree

/-- Values filed under keys: no key is listed twice, and every listed key has a value. The keys come
in the order in which they first occur in the list that is filed, and the values of one key in the
order of that list. -/
structure Grouping (κ α : Type) where
  groups : List (κ × List α)
  nodup : (groups.map Prod.fst).Nodup
  inhabited : ∀ e ∈ groups, e.2 ≠ []

namespace Grouping

variable {κ α : Type}

def empty : Grouping κ α where
  groups := []
  nodup := List.nodup_nil
  inhabited := by simp

def keys (g : Grouping κ α) : List κ :=
  g.groups.map Prod.fst

def size (g : Grouping κ α) : Nat :=
  (g.groups.flatMap Prod.snd).length

variable [DecidableEq κ]

/-- The values filed under a key in their order; none for a key that is not listed. -/
def find (g : Grouping κ α) (k : κ) : List α :=
  ((g.groups.find? fun e => e.1 = k).map Prod.snd).getD []

theorem mem_keys_iff {g : Grouping κ α} {k : κ} : k ∈ g.keys ↔ g.find k ≠ [] := by
  unfold keys find
  have hg := g.inhabited
  generalize g.groups = groups at hg
  induction groups with
  | nil => simp
  | cons e rest ih =>
    have he := hg e List.mem_cons_self
    have hr := ih fun e h => hg e (List.mem_cons_of_mem _ h)
    by_cases h : e.1 = k
    · simp [h, he]
    · have h' : k ≠ e.1 := Ne.symm h
      simpa [h, h'] using hr

/-- Files a value in front of the others of its key, and its key in front of the other keys. -/
def cons (k : κ) (a : α) (g : Grouping κ α) : Grouping κ α where
  groups := (k, a :: g.find k) :: g.groups.filter fun e => e.1 ≠ k
  nodup := by
    refine List.nodup_cons.mpr ⟨by simp, ?_⟩
    exact g.nodup.sublist (List.filter_sublist.map Prod.fst)
  inhabited := by
    intro e he
    rcases List.mem_cons.mp he with rfl | he
    · simp
    · exact g.inhabited e (List.mem_filter.mp he).1

theorem find_cons (k : κ) (a : α) (g : Grouping κ α) (l : κ) :
    (g.cons k a).find l = if l = k then a :: g.find k else g.find l := by
  by_cases h : l = k
  · simp [find, cons, h]
  · have h' : k ≠ l := Ne.symm h
    have hf : (fun e : κ × List α => decide (decide (e.1 ≠ k) = true ∧ decide (e.1 = l) = true)) =
        fun e => decide (e.1 = l) := by
      funext e
      by_cases he : e.1 = l <;> simp [he, h]
    simp only [find, cons, List.find?_cons, h', decide_false, List.find?_filter, hf, h, if_false]

theorem keys_cons (k : κ) (a : α) (g : Grouping κ α) :
    (g.cons k a).keys = k :: g.keys.filter (· ≠ k) := by
  simp [keys, cons, List.filter_map, Function.comp_def]

def ofList : List (κ × α) → Grouping κ α
  | [] => empty
  | (k, a) :: rest => (ofList rest).cons k a

/-- Each key finds exactly its own values, in their order. -/
theorem find_ofList (entries : List (κ × α)) (k : κ) :
    (ofList entries).find k = (entries.filter fun e => e.1 = k).map Prod.snd := by
  induction entries with
  | nil => rfl
  | cons e rest ih =>
    obtain ⟨l, a⟩ := e
    rw [ofList, find_cons]
    by_cases h : k = l
    · simp [← h, ih]
    · have h' : l ≠ k := Ne.symm h
      simp [h, h', ih]

/-- The distinct members of a list in the order in which they first occur. -/
def firsts : List κ → List κ
  | [] => []
  | k :: ks => k :: (firsts ks).filter (· ≠ k)

/-- The keys are listed in the order in which they first occur. -/
theorem keys_ofList (entries : List (κ × α)) :
    (ofList entries).keys = firsts (entries.map Prod.fst) := by
  induction entries with
  | nil => rfl
  | cons e rest ih => rw [ofList, keys_cons, ih, List.map_cons, firsts]

end Grouping

end ContextFree
