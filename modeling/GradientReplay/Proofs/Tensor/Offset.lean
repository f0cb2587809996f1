import GradientReplay.Proofs.Tensor.Matrix

/-!
Index lists and row-major offsets.

A shape contains the index lists with one index per axis, each below its dimension. They correspond
one to one to the offsets below the size of the shape: `coordinates` undoes `offset`
(`coordinates_offset`), and `offset` undoes `coordinates` (`offset_coordinates`). So a tensor gives
an element exactly at the index lists that its shape contains (`get_ok_iff`), and one that is
written there is the only one to change (`get_of_set`).
-/

namespace GradientReplay

/-! ### Index lists -/

namespace Shape

/-- One index per axis, each below its dimension. -/
def Contains (s : Shape) (index : List Nat) : Prop :=
  index.length = s.length ∧ ∀ p ∈ index.zip s, p.1 < p.2

instance (s : Shape) (index : List Nat) : Decidable (s.Contains index) :=
  inferInstanceAs (Decidable (_ ∧ _))

/-- For each axis, how many elements the axes after it have: so far apart are two elements whose
indices differ by one along that axis. -/
def strides : Shape → List Nat
  | [] => []
  | _ :: ds => size ds :: strides ds

/-- The row-major offset: each index counts as often as the stride of its axis tells. -/
def offset (s : Shape) (index : List Nat) : Nat := (List.zipWith (· * ·) index s.strides).sum

/-- The index list that has an offset. -/
def coordinates : Shape → Nat → List Nat
  | [], _ => []
  | _ :: ds, k => k / size ds :: coordinates ds (k % size ds)

variable {s ds : Shape} {d i k : Nat} {is index other : List Nat}

theorem contains_nil : Contains [] index ↔ index = [] := by
  constructor
  · rintro ⟨length, -⟩
    exact List.eq_nil_of_length_eq_zero length
  · rintro rfl
    exact ⟨rfl, by simp⟩

theorem contains_cons : Contains (d :: ds) (i :: is) ↔ i < d ∧ ds.Contains is := by
  simp only [Contains, List.length_cons, Nat.add_right_cancel_iff, List.zip_cons_cons,
    List.forall_mem_cons]
  exact and_left_comm

theorem Contains.exists_cons (h : Contains (d :: ds) index) :
    ∃ i is, index = i :: is ∧ i < d ∧ ds.Contains is := by
  cases index with
  | nil => cases h.1
  | cons i is => exact ⟨i, is, rfl, contains_cons.mp h⟩

theorem offset_cons : offset (d :: ds) (i :: is) = i * ds.size + ds.offset is := by
  simp [offset, strides]

/-! ### Offsets -/

/-- The offset of a contained index list is below the size. -/
theorem offset_lt_size (h : s.Contains index) : s.offset index < s.size := by
  induction s generalizing index with
  | nil =>
      cases contains_nil.mp h
      exact Nat.zero_lt_one
  | cons d ds ih =>
      obtain ⟨i, is, rfl, hi, his⟩ := h.exists_cons
      rw [offset_cons]
      exact Tensor.offset_lt hi (ih his)

/-- Below the size every offset has coordinates. -/
theorem contains_coordinates (h : k < s.size) : s.Contains (s.coordinates k) := by
  induction s generalizing k with
  | nil => exact contains_nil.mpr rfl
  | cons d ds ih =>
      obtain ⟨i, hi, j, hj, rfl⟩ := Tensor.exists_offset (m := d) (n := size ds) h
      rw [coordinates, Tensor.offset_div hj, Tensor.offset_mod hj, contains_cons]
      exact ⟨hi, ih hj⟩

theorem offset_coordinates (h : k < s.size) : s.offset (s.coordinates k) = k := by
  induction s generalizing k with
  | nil => exact (Nat.lt_one_iff.mp h).symm
  | cons d ds ih =>
      obtain ⟨i, -, j, hj, rfl⟩ := Tensor.exists_offset (m := d) (n := size ds) h
      rw [coordinates, Tensor.offset_div hj, Tensor.offset_mod hj, offset_cons, ih hj]

theorem coordinates_offset (h : s.Contains index) : s.coordinates (s.offset index) = index := by
  induction s generalizing index with
  | nil => exact (contains_nil.mp h).symm
  | cons d ds ih =>
      obtain ⟨i, is, rfl, -, his⟩ := h.exists_cons
      have inside := offset_lt_size his
      rw [offset_cons, coordinates, Tensor.offset_div inside, Tensor.offset_mod inside, ih his]

/-- Contained index lists with one offset are equal. -/
theorem Contains.eq_of_offset (h : s.Contains index) (h' : s.Contains other)
    (same : s.offset index = s.offset other) : index = other := by
  rw [← coordinates_offset h, same, coordinates_offset h']

/-- Below the size every offset is that of one contained index list. -/
theorem existsUnique_offset (h : k < s.size) :
    ∃! index, s.Contains index ∧ s.offset index = k := by
  refine ⟨s.coordinates k, ⟨contains_coordinates h, offset_coordinates h⟩, ?_⟩
  rintro index ⟨contained, rfl⟩
  exact (coordinates_offset contained).symm

/-- The offset is found exactly for the contained index lists. -/
theorem offset?_eq (s : Shape) (index : List Nat) :
    s.offset? index = if s.Contains index then some (s.offset index) else none := by
  induction s generalizing index with
  | nil =>
      cases index with
      | nil => rfl
      | cons i is => exact (if_neg fun h => by cases contains_nil.mp h).symm
  | cons d ds ih =>
      cases index with
      | nil => exact (if_neg fun h => by cases h.1).symm
      | cons i is =>
          rw [offset?, ih, offset_cons]
          by_cases hi : i < d
          · by_cases his : Contains ds is
            · rw [if_pos hi, if_pos his, if_pos (contains_cons.mpr ⟨hi, his⟩)]
              rfl
            · rw [if_pos hi, if_neg his, if_neg fun h => his (contains_cons.mp h).2]
              rfl
          · rw [if_neg hi, if_neg fun h => hi (contains_cons.mp h).1]

end Shape

/-! ### Elements -/

namespace Tensor

variable {α : Type} {t u : Tensor α} {index other : List Nat} {x : α}

theorem offset_lt_length (h : t.shape.Contains index) : t.shape.offset index < t.data.length :=
  t.length_data ▸ Shape.offset_lt_size h

theorem get_of_contains (h : t.shape.Contains index) :
    ∃ x, t.get index = .ok x ∧ t.data[t.shape.offset index]? = some x := by
  have found := List.getElem?_eq_getElem (offset_lt_length h)
  refine ⟨_, ?_, found⟩
  rw [get, Shape.offset?_eq, if_pos h, Option.bind_some, found]

theorem get_of_not_contains (h : ¬ t.shape.Contains index) :
    t.get index = .error (.outOfBounds index t.shape) := by
  rw [get, Shape.offset?_eq, if_neg h]
  rfl

/-- The element at an index list is the one at its offset. -/
theorem get_ok_iff :
    t.get index = .ok x ↔ t.shape.Contains index ∧ t.data[t.shape.offset index]? = some x := by
  by_cases h : t.shape.Contains index
  · obtain ⟨y, read, there⟩ := get_of_contains h
    rw [read, there, Except.ok.injEq, Option.some.injEq]
    exact (and_iff_right h).symm
  · rw [get_of_not_contains h]
    constructor
    · intro read
      cases read
    · intro found
      exact absurd found.1 h

theorem get_isOk_iff : (∃ x, t.get index = .ok x) ↔ t.shape.Contains index := by
  constructor
  · rintro ⟨x, read⟩
    exact (get_ok_iff.mp read).1
  · intro h
    obtain ⟨x, read, -⟩ := get_of_contains h
    exact ⟨x, read⟩

/-- An element is written at a contained index list, and the other elements stay in their order. -/
theorem set_of_contains (h : t.shape.Contains index) (x : α) :
    ∃ u, t.set index x = .ok u ∧ u.shape = t.shape ∧
      u.data = t.data.set (t.shape.offset index) x := by
  rw [set, Shape.offset?_eq, if_pos h]
  exact ⟨_, rfl, rfl, rfl⟩

theorem set_of_not_contains (h : ¬ t.shape.Contains index) (x : α) :
    t.set index x = .error (.outOfBounds index t.shape) := by
  rw [set, Shape.offset?_eq, if_neg h]

theorem set_ok (written : t.set index x = .ok u) :
    t.shape.Contains index ∧ u.shape = t.shape ∧
      u.data = t.data.set (t.shape.offset index) x := by
  by_cases h : t.shape.Contains index
  · obtain ⟨v, made, shape, data⟩ := set_of_contains h x
    cases made.symm.trans written
    exact ⟨h, shape, data⟩
  · cases (set_of_not_contains h x).symm.trans written

/-- What was written is read where it was written, and nothing else has changed. -/
theorem get_of_set (written : t.set index x = .ok u) :
    u.get index = .ok x ∧ ∀ other, other ≠ index → u.get other = t.get other := by
  obtain ⟨h, shape, data⟩ := set_ok written
  constructor
  · rw [get_ok_iff, shape, data]
    exact ⟨h, List.getElem?_set_self (offset_lt_length h)⟩
  · intro other apart
    by_cases h' : t.shape.Contains other
    · have offsets : t.shape.offset index ≠ t.shape.offset other :=
        fun same => apart (h'.eq_of_offset h same.symm)
      obtain ⟨y, read, there⟩ := get_of_contains h'
      rw [read, get_ok_iff, shape, data, List.getElem?_set_ne offsets]
      exact ⟨h', there⟩
    · rw [get_of_not_contains h', get_of_not_contains (shape.symm ▸ h'), shape]

end Tensor

end GradientReplay
