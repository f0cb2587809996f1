/-!
Series: what is stored at some of the indices of a sequence, such as time steps. A series keeps
its entries in ascending order of the index, one entry an index, so two series that answer every
look-up alike are equal (`Series.ext_get?`).

An index is a 64-bit word.
-/

namespace GradientReplay

/-- A place in a sequence. -/
abbrev Index := UInt64

namespace Index

/-- The largest index. -/
def last : Index := 18446744073709551615

/-- The index before, if there is one. -/
def previous? (i : Index) : Option Index := if i = 0 then none else some (i - 1)

/-- The index after, if there is one. -/
def next? (i : Index) : Option Index := if i = last then none else some (i + 1)

variable {i j : Index}

theorem previous?_eq_some : i.previous? = some j ↔ j.toNat + 1 = i.toNat := by
  unfold previous?
  split
  · rename_i zero
    subst zero
    simp
  · rename_i positive
    have positive : i.toNat ≠ 0 := fun zero => positive (UInt64.toNat_inj.mp zero)
    have one : (1 : Index) ≤ i := by
      rw [UInt64.le_iff_toNat_le]
      exact Nat.one_le_iff_ne_zero.mpr positive
    have before : (i - 1).toNat = i.toNat - 1 := UInt64.toNat_sub_of_le i 1 one
    rw [Option.some.injEq, ← UInt64.toNat_inj, before]
    omega

theorem next?_eq_none : i.next? = none ↔ i = last := by simp [next?]

theorem next?_eq_some : i.next? = some j ↔ i.toNat + 1 = j.toNat := by
  have bound := j.toNat_lt
  unfold next?
  split
  · rename_i here
    subst here
    have top : last.toNat = 2 ^ 64 - 1 := rfl
    simp only [reduceCtorEq, false_iff]
    omega
  · rename_i below
    have below : i.toNat ≠ 2 ^ 64 - 1 := fun top => below (UInt64.toNat_inj.mp top)
    have inside := i.toNat_lt
    have after : (i + 1).toNat = i.toNat + 1 := by
      rw [UInt64.toNat_add, UInt64.toNat_one]
      omega
    rw [Option.some.injEq, ← UInt64.toNat_inj, after]

/-- The index before is another one. -/
theorem previous?_ne (before : i.previous? = some j) : j ≠ i := by
  rintro rfl
  have same := previous?_eq_some.mp before
  omega

/-- The index after is another one. -/
theorem next?_ne (after : i.next? = some j) : j ≠ i := by
  rintro rfl
  have same := next?_eq_some.mp after
  omega

/-- What is read at the index after is the same of all that agree off the index itself. -/
theorem next?_bind_congr {β : Type} {f g : Index → Option β} (same : ∀ j ≠ i, f j = g j) :
    i.next?.bind f = i.next?.bind g := by
  cases after : i.next? with
  | none => rfl
  | some j => exact same j (next?_ne after)

end Index

structure Series (β : Type) where
  entries : List (Index × β)
  sorted : entries.Pairwise fun a b => a.1 < b.1

namespace Series

variable {β γ : Type}

/-! ### Look-up, insertion and removal in sorted entries -/

/-- The first entry at an index. -/
def find (i : Index) : List (Index × β) → Option β
  | [] => none
  | (j, b) :: rest => if i = j then some b else find i rest

/-- Put an entry in its place, over one at the same index. -/
def place (i : Index) (b : β) : List (Index × β) → List (Index × β)
  | [] => [(i, b)]
  | (j, c) :: rest =>
      if i < j then (i, b) :: (j, c) :: rest
      else if i = j then (i, b) :: rest
      else (j, c) :: place i b rest

theorem mem_place {i : Index} {b : β} {entry : Index × β} {entries : List (Index × β)}
    (h : entry ∈ place i b entries) : entry = (i, b) ∨ entry ∈ entries := by
  induction entries with
  | nil => simpa [place] using h
  | cons head rest ih =>
      simp only [place] at h
      split at h
      · simpa using h
      · split at h
        · exact (List.mem_cons.mp h).imp id (List.mem_cons_of_mem _)
        · rcases List.mem_cons.mp h with rfl | h
          · exact .inr List.mem_cons_self
          · exact (ih h).imp id (List.mem_cons_of_mem _)

theorem place_sorted (i : Index) (b : β) {entries : List (Index × β)}
    (sorted : entries.Pairwise fun a b => a.1 < b.1) :
    (place i b entries).Pairwise fun a b => a.1 < b.1 := by
  induction entries with
  | nil => simp [place]
  | cons head rest ih =>
      obtain ⟨first, tail⟩ := List.pairwise_cons.mp sorted
      simp only [place]
      split
      · rename_i less
        refine List.pairwise_cons.mpr ⟨fun entry mem => ?_, sorted⟩
        rcases List.mem_cons.mp mem with rfl | mem
        · exact less
        · exact UInt64.lt_trans less (first entry mem)
      · split
        · rename_i same
          subst same
          exact List.pairwise_cons.mpr ⟨first, tail⟩
        · rename_i notLess notSame
          refine List.pairwise_cons.mpr ⟨fun entry mem => ?_, ih tail⟩
          rcases mem_place mem with rfl | mem
          · exact UInt64.lt_of_le_of_ne (UInt64.not_lt.mp notLess) fun h => notSame h.symm
          · exact first entry mem

/-! ### Series -/

def empty : Series β := ⟨[], .nil⟩

def get? (s : Series β) (i : Index) : Option β := find i s.entries

/-- Store at an index, over what was there. -/
def insert (s : Series β) (i : Index) (b : β) : Series β :=
  ⟨place i b s.entries, place_sorted i b s.sorted⟩

/-- Remove what is stored at an index. -/
def erase (s : Series β) (i : Index) : Series β :=
  ⟨s.entries.filter (·.1 ≠ i), s.sorted.filter _⟩

/-- The indices that hold something, ascending. -/
def indices (s : Series β) : List Index := s.entries.map (·.1)

/-- What is stored, in ascending order of the index. -/
def values (s : Series β) : List β := s.entries.map (·.2)

/-- How many indices hold something. -/
def size (s : Series β) : Nat := s.entries.length

/-- The series of these entries; of two at one index the later counts. -/
def ofList (entries : List (Index × β)) : Series β :=
  entries.foldl (fun s entry => s.insert entry.1 entry.2) empty

/-! ### Laws of look-up -/

@[simp] theorem get?_empty (i : Index) : (empty : Series β).get? i = none := rfl

theorem find_place (i j : Index) (b : β) (entries : List (Index × β)) :
    find j (place i b entries) = if j = i then some b else find j entries := by
  induction entries with
  | nil => simp [place, find]
  | cons head rest ih =>
      obtain ⟨k, c⟩ := head
      simp only [place]
      split
      · simp [find]
      · split
        · rename_i same
          subst same
          by_cases h : j = i <;> simp [find, h]
        · rename_i notSame
          simp only [find, ih]
          by_cases h : j = k
          · subst h
            simp [Ne.symm notSame]
          · simp [h]

@[simp] theorem get?_insert (s : Series β) (i j : Index) (b : β) :
    (s.insert i b).get? j = if j = i then some b else s.get? j :=
  find_place i j b s.entries

@[simp] theorem get?_erase (s : Series β) (i j : Index) :
    (s.erase i).get? j = if j = i then none else s.get? j := by
  obtain ⟨entries, sorted⟩ := s
  simp only [get?, erase]
  clear sorted
  induction entries with
  | nil => simp [find]
  | cons head rest ih =>
      obtain ⟨k, c⟩ := head
      by_cases hk : k = i
      · subst hk
        simp only [List.filter_cons, ne_eq, not_true_eq_false, decide_false, find]
        by_cases h : j = k <;> simpa [h] using ih
      · simp only [List.filter_cons, ne_eq, hk, not_false_eq_true, decide_true, if_true, find]
        by_cases h : j = k
        · subst h; simp [hk]
        · simpa [h] using ih

theorem find_mem {i : Index} {b : β} {entries : List (Index × β)}
    (h : find i entries = some b) : (i, b) ∈ entries := by
  induction entries with
  | nil => simp [find] at h
  | cons head rest ih =>
      obtain ⟨j, c⟩ := head
      simp only [find] at h
      split at h
      · rename_i same
        cases h; subst same; exact List.mem_cons_self
      · exact List.mem_cons_of_mem _ (ih h)

theorem find_of_mem {i : Index} {b : β} {entries : List (Index × β)}
    (sorted : entries.Pairwise fun a b => a.1 < b.1) (h : (i, b) ∈ entries) :
    find i entries = some b := by
  induction entries with
  | nil => simp at h
  | cons head rest ih =>
      obtain ⟨first, tail⟩ := List.pairwise_cons.mp sorted
      rcases List.mem_cons.mp h with rfl | mem
      · simp [find]
      · have less : head.1 < i := first _ mem
        have : i ≠ head.1 := fun e => UInt64.lt_irrefl _ (e ▸ less)
        simp [find, this, ih tail mem]

/-- Equal look-ups make equal series. -/
theorem ext_get? {s t : Series β} (same : ∀ i, s.get? i = t.get? i) : s = t := by
  obtain ⟨xs, hx⟩ := s
  obtain ⟨ys, hy⟩ := t
  suffices xs = ys by subst this; rfl
  have mem : ∀ entry, entry ∈ xs ↔ entry ∈ ys := fun entry =>
    ⟨fun h => find_mem ((same entry.1).symm.trans (find_of_mem hx h)),
      fun h => find_mem ((same entry.1).trans (find_of_mem hy h))⟩
  clear same
  induction xs generalizing ys with
  | nil =>
      cases ys with
      | nil => rfl
      | cons y ys => exact absurd ((mem y).mpr List.mem_cons_self) (List.not_mem_nil)
  | cons x xs ih =>
      cases ys with
      | nil => exact absurd ((mem x).mp List.mem_cons_self) (List.not_mem_nil)
      | cons y ys =>
          obtain ⟨firstX, tailX⟩ := List.pairwise_cons.mp hx
          obtain ⟨firstY, tailY⟩ := List.pairwise_cons.mp hy
          have head : x = y := by
            rcases List.mem_cons.mp ((mem x).mp List.mem_cons_self) with h | h
            · exact h
            · rcases List.mem_cons.mp ((mem y).mpr List.mem_cons_self) with h' | h'
              · exact h'.symm
              · exact absurd (UInt64.lt_trans (firstX _ h') (firstY _ h)) (UInt64.lt_irrefl _)
          subst head
          congr 1
          refine ih tailX ys tailY fun entry => ⟨fun h => ?_, fun h => ?_⟩
          · rcases List.mem_cons.mp ((mem entry).mp (List.mem_cons_of_mem _ h)) with rfl | h'
            · exact absurd (firstX _ h) (UInt64.lt_irrefl _)
            · exact h'
          · rcases List.mem_cons.mp ((mem entry).mpr (List.mem_cons_of_mem _ h)) with rfl | h'
            · exact absurd (firstY _ h) (UInt64.lt_irrefl _)
            · exact h'

/-- What was stored at an index is removed with it. -/
@[simp] theorem erase_insert (s : Series β) (i : Index) (b : β) :
    (s.insert i b).erase i = s.erase i := by
  apply ext_get?
  intro j
  by_cases here : j = i <;> simp [here]

@[simp] theorem erase_erase (s : Series β) (i : Index) : (s.erase i).erase i = s.erase i := by
  apply ext_get?
  intro j
  by_cases here : j = i <;> simp [here]

end Series

end GradientReplay
