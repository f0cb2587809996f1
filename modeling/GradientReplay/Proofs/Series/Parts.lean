import GradientReplay.Series

/-!
Parts of a series.

A series can be restricted to some of its indices (`restrict`), such as those `below` or `above`
one, or to a number of entries at its end (`last`), and two series can be put together (`union`). Of
two series that lie one before the other the entries of the first come first (`union_entries`). A
series made from entries in either order of their indices has just these entries (`entries_ofList`,
`entries_ofList_reverse`).
-/

namespace GradientReplay.Series

variable {β : Type}

/-- All indices of the first series are below all those of the second. -/
def Before (a b : Series β) : Prop := ∀ i ∈ a.indices, ∀ j ∈ b.indices, i < j

-- Decided by going through the stored indices, not through all 2 ^ 64 there are.
instance (a b : Series β) : Decidable (a.Before b) :=
  decidable_of_iff (a.indices.all fun i => b.indices.all (i < ·)) (by simp [Before])

/-- What either series stores; where both store something, the second counts. -/
def union (a b : Series β) : Series β := ofList (a.entries ++ b.entries)

/-- What is stored at the largest indices, so many of them. -/
def last (s : Series β) (k : Nat) : Series β := ⟨s.entries.drop (s.size - k), s.sorted.drop⟩

/-- What is stored at some of the indices. -/
def restrict (keep : Index → Bool) (s : Series β) : Series β :=
  ⟨s.entries.filter fun entry => keep entry.1, s.sorted.filter _⟩

/-- What is stored below an index. -/
def below (s : Series β) (i : Index) : Series β := s.restrict (· < i)

/-- What is stored above an index. -/
def above (s : Series β) (i : Index) : Series β := s.restrict (i < ·)

theorem find_filter (keep : Index → Bool) (i : Index) (entries : List (Index × β)) :
    find i (entries.filter fun entry => keep entry.1) =
      if keep i then find i entries else none := by
  induction entries with
  | nil => simp [find]
  | cons entry entries ih =>
      rw [find, List.filter_cons]
      by_cases here : i = entry.1
      · subst here
        cases kept : keep entry.1 with
        | true => simp [find]
        | false => simp [ih, kept]
      · rw [if_neg here, ← ih]
        split
        · rw [find, if_neg here]
        · rfl

@[simp] theorem get?_restrict (keep : Index → Bool) (s : Series β) (i : Index) :
    (s.restrict keep).get? i = if keep i then s.get? i else none :=
  find_filter keep i s.entries

/-- What is stored at an index that is kept is stored in what is kept. -/
theorem restrict_insert {keep : Index → Bool} {i : Index} (kept : keep i = true) (s : Series β)
    (b : β) : (s.insert i b).restrict keep = (s.restrict keep).insert i b := by
  apply ext_get?
  intro j
  by_cases here : j = i
  · subst here
    simp [kept]
  · simp [here]

/-! ### Series made from entries -/

theorem place_last {i : Index} {b : β} {entries : List (Index × β)}
    (largest : ∀ entry ∈ entries, entry.1 < i) : place i b entries = entries ++ [(i, b)] := by
  induction entries with
  | nil => rfl
  | cons entry entries ih =>
      have less : entry.1 < i := largest entry List.mem_cons_self
      rw [place, if_neg (UInt64.lt_asymm less), if_neg (UInt64.ne_of_lt less).symm,
        ih fun other hother => largest other (List.mem_cons_of_mem _ hother)]
      rfl

theorem place_first {i : Index} {b : β} {entries : List (Index × β)}
    (smallest : ∀ entry ∈ entries, i < entry.1) : place i b entries = (i, b) :: entries := by
  cases entries with
  | nil => rfl
  | cons entry entries => exact if_pos (smallest entry List.mem_cons_self)

theorem entries_foldl_insert {s : Series β} {entries : List (Index × β)}
    (sorted : (s.entries ++ entries).Pairwise fun a b => a.1 < b.1) :
    (entries.foldl (fun s entry => s.insert entry.1 entry.2) s).entries = s.entries ++ entries := by
  induction entries generalizing s with
  | nil => exact (List.append_nil _).symm
  | cons entry entries ih =>
      have placed : (s.insert entry.1 entry.2).entries = s.entries ++ [entry] :=
        place_last fun other hother =>
          (List.pairwise_append.mp sorted).2.2 other hother entry List.mem_cons_self
      have split : s.entries ++ entry :: entries = (s.entries ++ [entry]) ++ entries := by simp
      rw [List.foldl_cons, ih (by rwa [placed, ← split]), placed, ← split]

/-- A series made from ascending entries has just these entries. -/
theorem entries_ofList {entries : List (Index × β)}
    (sorted : entries.Pairwise fun a b => a.1 < b.1) : (ofList entries).entries = entries :=
  entries_foldl_insert sorted

theorem ofList_entries (s : Series β) : ofList s.entries = s :=
  ext_get? fun i => congrArg (find i) (entries_ofList s.sorted)

/-- A series made from descending entries has these entries the other way round. -/
theorem entries_ofList_reverse {entries : List (Index × β)}
    (sorted : entries.Pairwise fun a b => a.1 < b.1) :
    (ofList entries.reverse).entries = entries := by
  induction entries with
  | nil => rfl
  | cons entry entries ih =>
      obtain ⟨first, sorted⟩ := List.pairwise_cons.mp sorted
      have placed : (ofList (entry :: entries).reverse).entries =
          place entry.1 entry.2 (ofList entries.reverse).entries := by
        rw [ofList, List.reverse_cons, List.foldl_append]
        rfl
      rw [placed, ih sorted, place_first first]

/-- Entries at the indices of a series ascend as those of the series do. -/
theorem pairwise_of_indices {γ : Type} (s : Series β) {entries : List (Index × γ)}
    (indices : entries.map Prod.fst = s.entries.map Prod.fst) :
    entries.Pairwise fun a b => a.1 < b.1 := by
  have sorted := s.sorted
  rw [← List.pairwise_map (R := (· < ·)), ← indices, List.pairwise_map] at sorted
  exact sorted

/-! ### Two series together -/

/-- Of what was stored before and what is stored then, the latter counts. -/
theorem get?_foldl_insert (s : Series β) (entries : List (Index × β)) (i : Index) :
    (entries.foldl (fun s entry => s.insert entry.1 entry.2) s).get? i =
      ((ofList entries).get? i).or (s.get? i) := by
  induction entries generalizing s with
  | nil => rfl
  | cons entry entries ih =>
      rw [ofList, List.foldl_cons, List.foldl_cons, ih, ih (empty.insert _ _), Option.or_assoc]
      congr 1
      by_cases here : i = entry.1 <;> simp [here]

theorem ofList_append (entries more : List (Index × β)) :
    ofList (entries ++ more) = (ofList entries).union (ofList more) := by
  apply ext_get?
  intro i
  have split (xs ys : List (Index × β)) :
      (ofList (xs ++ ys)).get? i = ((ofList ys).get? i).or ((ofList xs).get? i) := by
    rw [ofList, List.foldl_append, get?_foldl_insert]
    rfl
  rw [union, split, split, ofList_entries, ofList_entries]

/-- Of two series that lie one before the other the entries of the first come first. -/
theorem union_entries {a b : Series β} (before : a.Before b) :
    (a.union b).entries = a.entries ++ b.entries := by
  apply entries_ofList
  refine List.pairwise_append.mpr ⟨a.sorted, b.sorted, fun x hx y hy => ?_⟩
  exact before x.1 (List.mem_map_of_mem hx) y.1 (List.mem_map_of_mem hy)

/-! ### A series cut at an index -/

theorem find_split {i : Index} {b : β} {entries : List (Index × β)}
    (sorted : entries.Pairwise fun a b => a.1 < b.1) (h : find i entries = some b) :
    entries = entries.filter (·.1 < i) ++ (i, b) :: entries.filter (i < ·.1) := by
  induction entries with
  | nil => cases h
  | cons entry entries ih =>
      obtain ⟨first, sorted⟩ := List.pairwise_cons.mp sorted
      rw [find] at h
      split at h
      · -- The entry at the index: all others are above it.
        rename_i here
        cases h
        subst here
        have none : entries.filter (·.1 < entry.1) = [] :=
          List.filter_eq_nil_iff.mpr fun other hother => by
            simpa using UInt64.le_of_lt (first other hother)
        have all : entries.filter (entry.1 < ·.1) = entries :=
          List.filter_eq_self.mpr fun other hother => by simpa using first other hother
        simp [none, all]
      · have less : entry.1 < i := first (i, b) (find_mem h)
        have rest := ih sorted h
        simp only [List.filter_cons, less, UInt64.lt_asymm less, decide_true, decide_false, if_true,
          Bool.false_eq_true, if_false, List.cons_append]
        exact congrArg (entry :: ·) rest

/-- An entry of a series parts the others into those below and those above it. -/
theorem entries_split {s : Series β} {i : Index} {b : β} (h : s.get? i = some b) :
    s.entries = (s.below i).entries ++ (i, b) :: (s.above i).entries :=
  find_split s.sorted h

end GradientReplay.Series
