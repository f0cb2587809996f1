import GradientReplay.Proofs.Tensor.Fitting
import GradientReplay.Tensor.Element

/-!
Matrices read by row and column.

Row `i` and column `j` of a matrix with `n` columns stand at the offset `i * n + j`, and every
offset inside the matrix is of this form (`exists_offset`). So a product has at `(i, j)` the numbers
of row `i` times those of column `j` added up (`get_matMul`), and a transpose has at `(j, i)` what
stood at `(i, j)` (`get_transpose`). Where the order of two factors does not matter, the transpose of a
product is the product of the transposes the other way round (`product_and_transpose`).
-/

namespace GradientReplay.Tensor

variable {α : Type}

/-! ### Offsets -/

section Offsets

variable {m n i j : Nat}

/-- The offset of row `i` and column `j` is inside the matrix. -/
theorem offset_lt (hi : i < m) (hj : j < n) : i * n + j < m * n := by
  calc i * n + j < i * n + n := Nat.add_lt_add_left hj _
    _ = (i + 1) * n := (Nat.succ_mul i n).symm
    _ ≤ m * n := Nat.mul_le_mul_right n hi

theorem offset_div (hj : j < n) : (i * n + j) / n = i := by
  have positive : 0 < n := lt_of_le_of_lt (Nat.zero_le j) hj
  rw [Nat.mul_comm, Nat.mul_add_div positive, Nat.div_eq_of_lt hj, Nat.add_zero]

theorem offset_mod (hj : j < n) : (i * n + j) % n = j := by
  rw [Nat.mul_comm, Nat.mul_add_mod, Nat.mod_eq_of_lt hj]

/-- Every offset inside a matrix is that of a row and a column. -/
theorem exists_offset {p : Nat} (hp : p < m * n) : ∃ i < m, ∃ j < n, p = i * n + j := by
  have positive : 0 < n := Nat.pos_of_mul_pos_left (lt_of_le_of_lt (Nat.zero_le p) hp)
  refine ⟨p / n, Nat.div_lt_of_lt_mul (Nat.mul_comm m n ▸ hp), p % n, Nat.mod_lt p positive, ?_⟩
  rw [Nat.mul_comm]
  exact (Nat.div_add_mod p n).symm

end Offsets

/-! ### Tensors of rank two -/

section Rank

variable {operator : Operator} {t a b : Tensor α}

theorem rank_eq_two : t.rank = 2 ↔ ∃ m n, t.shape = [m, n] := List.length_eq_two

theorem not_matrix_of_rank (rank : t.rank ≠ 2) (m n : Nat) : t.shape ≠ [m, n] :=
  fun shape => rank (rank_eq_two.mpr ⟨m, n, shape⟩)

variable [Zero α]

theorem transpose_of_not_matrix (rank : t.rank ≠ 2) :
    t.transpose = .error (.notMatrix .transpose t.shape) := by
  rw [transpose, dimensions_of_not_matrix (not_matrix_of_rank rank)]
  rfl

theorem transpose_isOk_iff : (∃ u, t.transpose = .ok u) ↔ t.rank = 2 := by
  constructor
  · rintro ⟨u, made⟩
    obtain ⟨m, n, shape, -⟩ := transpose_ok made
    exact rank_eq_two.mpr ⟨m, n, shape⟩
  · intro rank
    obtain ⟨m, n, shape⟩ := rank_eq_two.mp rank
    obtain ⟨u, made, -⟩ := transpose_of_matrix shape
    exact ⟨u, made⟩

theorem transpose_error_iff {e : TensorError} :
    t.transpose = .error e ↔ t.rank ≠ 2 ∧ e = .notMatrix .transpose t.shape := by
  constructor
  · intro failed
    have rank : t.rank ≠ 2 := by
      intro rank
      obtain ⟨u, made⟩ := transpose_isOk_iff.mpr rank
      cases made.symm.trans failed
    cases (transpose_of_not_matrix rank).symm.trans failed
    exact ⟨rank, rfl⟩
  · rintro ⟨rank, rfl⟩
    exact transpose_of_not_matrix rank

variable [Add α] [Mul α]

theorem matMul_isOk_iff :
    (∃ c, a.matMul b = .ok c) ↔ ∃ m k n, a.shape = [m, k] ∧ b.shape = [k, n] := by
  constructor
  · rintro ⟨c, made⟩
    obtain ⟨m, k, n, ha, hb, -⟩ := matMul_shape made
    exact ⟨m, k, n, ha, hb⟩
  · rintro ⟨m, k, n, ha, hb⟩
    obtain ⟨c, made, -⟩ := matMul_of_matrices ha hb
    exact ⟨c, made⟩

theorem matMul_of_second_not_matrix (left : a.rank = 2) (right : b.rank ≠ 2) :
    a.matMul b = .error (.notMatrix .matMul b.shape) := by
  obtain ⟨m, k, ha⟩ := rank_eq_two.mp left
  rw [matMul, dimensions_of_matrix ha, dimensions_of_not_matrix (not_matrix_of_rank right)]
  rfl

theorem matMul_of_inner_ne {m k l n : Nat} (ha : a.shape = [m, k]) (hb : b.shape = [l, n])
    (inner : k ≠ l) : a.matMul b = .error (.shapesDiffer .matMul a.shape b.shape) := by
  rw [matMul, dimensions_of_matrix ha, dimensions_of_matrix hb]
  exact if_pos inner

/-- The error names the first tensor that is no matrix, or both shapes. -/
theorem matMul_error_iff {e : TensorError} :
    a.matMul b = .error e ↔
      a.rank ≠ 2 ∧ e = .notMatrix .matMul a.shape ∨
        a.rank = 2 ∧ b.rank ≠ 2 ∧ e = .notMatrix .matMul b.shape ∨
        ∃ m k l n, a.shape = [m, k] ∧ b.shape = [l, n] ∧ k ≠ l ∧
          e = .shapesDiffer .matMul a.shape b.shape := by
  constructor
  · intro failed
    by_cases left : a.rank = 2
    · by_cases right : b.rank = 2
      · obtain ⟨m, k, ha⟩ := rank_eq_two.mp left
        obtain ⟨l, n, hb⟩ := rank_eq_two.mp right
        have inner : k ≠ l := by
          rintro rfl
          obtain ⟨c, made, -⟩ := matMul_of_matrices ha hb
          cases made.symm.trans failed
        cases (matMul_of_inner_ne ha hb inner).symm.trans failed
        exact .inr (.inr ⟨m, k, l, n, ha, hb, inner, rfl⟩)
      · cases (matMul_of_second_not_matrix left right).symm.trans failed
        exact .inr (.inl ⟨left, right, rfl⟩)
    · cases (matMul_of_not_matrix (not_matrix_of_rank left) b).symm.trans failed
      exact .inl ⟨left, rfl⟩
  · rintro (⟨left, rfl⟩ | ⟨left, right, rfl⟩ | ⟨m, k, l, n, ha, hb, inner, rfl⟩)
    · exact matMul_of_not_matrix (not_matrix_of_rank left) b
    · exact matMul_of_second_not_matrix left right
    · exact matMul_of_inner_ne ha hb inner

end Rank

/-! ### Entries -/

section Entries

variable [Zero α] {t u a b c : Tensor α} {m k n i j : Nat}

/-- The number in a row and a column of a matrix; zero outside it. -/
def entry (t : Tensor α) (i j : Nat) : α := (t.get [i, j]).toOption.getD 0

theorem get_of_matrix (shape : t.shape = [m, n]) (hi : i < m) (hj : j < n) :
    t.get [i, j] = .ok (t.coord (i * n + j)) := by
  have offset : t.shape.offset? [i, j] = some (i * n + j) := by
    simp [shape, Shape.offset?, Shape.size, hi, hj]
  have inside : i * n + j < t.data.length := by
    rw [t.length_data, shape, Shape.size_pair]
    exact offset_lt hi hj
  rw [get, offset, Option.bind_some, List.getElem?_eq_getElem inside]
  simp [coord, inside]

theorem entry_of_matrix (shape : t.shape = [m, n]) (hi : i < m) (hj : j < n) :
    t.entry i j = t.coord (i * n + j) := by
  rw [entry, get_of_matrix shape hi hj]
  rfl

/-- Matrices of one shape with the same numbers in all rows and columns are equal. -/
theorem ext_matrix (ht : t.shape = [m, n]) (hu : u.shape = [m, n])
    (same : ∀ i < m, ∀ j < n, t.get [i, j] = u.get [i, j]) : t = u := by
  refine Tensor.ext (ht.trans hu.symm) ?_
  rw [data_eq_map_coord t, data_eq_map_coord u, ht, hu]
  refine List.map_congr_left fun p hp => ?_
  rw [List.mem_range, Shape.size_pair] at hp
  obtain ⟨i, hi, j, hj, rfl⟩ := exists_offset hp
  have here := same i hi j hj
  rw [get_of_matrix ht hi hj, get_of_matrix hu hi hj] at here
  exact Except.ok.inj here

/-! ### Transposes -/

theorem coord_transpose (h : t.transpose = .ok u) (ht : t.shape = [m, n]) :
    u.shape = [n, m] ∧ ∀ i < m, ∀ j < n, u.coord (j * m + i) = t.coord (i * n + j) := by
  obtain ⟨m', n', ht', shape, numbers⟩ := transpose_ok h
  obtain ⟨rfl, rfl⟩ : m = m' ∧ n = n' := by simpa using ht.symm.trans ht'
  refine ⟨shape, fun i hi j hj => ?_⟩
  rw [numbers _ (offset_lt hj hi), offset_div hi, offset_mod hi]

theorem get_transpose (h : t.transpose = .ok u) (ht : t.shape = [m, n]) (hi : i < m) (hj : j < n) :
    u.get [j, i] = t.get [i, j] := by
  obtain ⟨shape, numbers⟩ := coord_transpose h ht
  rw [get_of_matrix shape hj hi, get_of_matrix ht hi hj, numbers i hi j hj]

/-- The transpose of a transpose is the matrix itself. -/
theorem transpose_transpose (h : t.transpose = .ok u) : u.transpose = .ok t := by
  obtain ⟨m, n, ht, hu, -⟩ := transpose_ok h
  obtain ⟨v, made, hv⟩ := transpose_of_matrix hu
  have same : v = t := ext_matrix hv ht fun i hi j hj => by
    rw [get_transpose made hu hj hi, get_transpose h ht hi hj]
  rw [made, same]

/-! ### Products -/

variable [Add α] [Mul α]

theorem coord_matMul (h : a.matMul b = .ok c) (ha : a.shape = [m, k]) (hb : b.shape = [k, n]) :
    c.shape = [m, n] ∧ ∀ i < m, ∀ j < n, c.coord (i * n + j) =
      innerProduct k (fun l => a.coord (i * k + l)) fun l => b.coord (l * n + j) := by
  obtain ⟨m', k', n', ha', hb', rfl⟩ := matMul_eq h
  obtain ⟨rfl, rfl⟩ : m = m' ∧ k = k' := by simpa using ha.symm.trans ha'
  obtain rfl : n = n' := by simpa using hb.symm.trans hb'
  refine ⟨rfl, fun i hi j hj => ?_⟩
  rw [coord_generate (Shape.size_pair m n ▸ offset_lt hi hj), offset_div hj, offset_mod hj]

/-- In row `i` and column `j` of a product stands the sum of the products along them. -/
theorem get_matMul (h : a.matMul b = .ok c) (ha : a.shape = [m, k]) (hb : b.shape = [k, n])
    (hi : i < m) (hj : j < n) :
    c.get [i, j] =
      .ok (((List.range k).map fun l => a.entry i l * b.entry l j).foldl (· + ·) 0) := by
  obtain ⟨shape, numbers⟩ := coord_matMul h ha hb
  rw [get_of_matrix shape hi hj, numbers i hi j hj, innerProduct]
  congr 2
  refine List.map_congr_left fun l hl => ?_
  have hl : l < k := List.mem_range.mp hl
  rw [entry_of_matrix ha hi hl, entry_of_matrix hb hl hj]

/-- The product of the transposes the other way round is the transpose of the product: at each place
the same products are added up in the same order. -/
theorem transpose_matMul (commute : ∀ x y : α, x * y = y * x) (h : a.matMul b = .ok c) :
    ∃ at' bt d, a.transpose = .ok at' ∧ b.transpose = .ok bt ∧ bt.matMul at' = .ok d ∧
      c.transpose = .ok d := by
  obtain ⟨m, k, n, ha, hb, hc⟩ := matMul_shape h
  obtain ⟨at', hat, atShape⟩ := transpose_of_matrix ha
  obtain ⟨bt, hbt, btShape⟩ := transpose_of_matrix hb
  obtain ⟨d, hd, dShape⟩ := matMul_of_matrices btShape atShape
  obtain ⟨ct, hct, ctShape⟩ := transpose_of_matrix hc
  have same : ct = d := ext_matrix ctShape dShape fun j hj i hi => by
    rw [get_transpose hct hc hi hj, get_matMul h ha hb hi hj, get_matMul hd btShape atShape hj hi]
    congr 2
    refine List.map_congr_left fun l hl => ?_
    have hl : l < k := List.mem_range.mp hl
    rw [commute, entry, entry, entry, entry, get_transpose hat ha hi hl,
      get_transpose hbt hb hl hj]
  exact ⟨at', bt, d, hat, hbt, hd, same ▸ hct⟩

/-- Two tensors have a product exactly if they are matrices that go together, and the error names the
first that is no matrix, or both shapes. The product has the rows of the first and the columns of
the second, and in each place the products along row and column added up. A tensor has a transpose
exactly if it is a matrix; the two dimensions are swapped, each number moves from row and column to
column and row, and the transpose of that is the tensor itself. If the order of two factors does not
matter, the transposes have a product the other way round whenever the tensors have one, and it is
the transpose of that. -/
theorem product_and_transpose (a b : Tensor α) :
    ((∃ c, a.matMul b = .ok c) ↔ ∃ m k n, a.shape = [m, k] ∧ b.shape = [k, n]) ∧
      (∀ e, a.matMul b = .error e ↔
        a.rank ≠ 2 ∧ e = .notMatrix .matMul a.shape ∨
          a.rank = 2 ∧ b.rank ≠ 2 ∧ e = .notMatrix .matMul b.shape ∨
          ∃ m k l n, a.shape = [m, k] ∧ b.shape = [l, n] ∧ k ≠ l ∧
            e = .shapesDiffer .matMul a.shape b.shape) ∧
      (∀ c m k n, a.matMul b = .ok c → a.shape = [m, k] → b.shape = [k, n] →
        c.shape = [m, n] ∧ ∀ i < m, ∀ j < n, c.get [i, j] =
          .ok (((List.range k).map fun l => a.entry i l * b.entry l j).foldl (· + ·) 0)) ∧
      ((∃ u, a.transpose = .ok u) ↔ a.rank = 2) ∧
      (∀ e, a.transpose = .error e ↔ a.rank ≠ 2 ∧ e = .notMatrix .transpose a.shape) ∧
      (∀ u m n, a.transpose = .ok u → a.shape = [m, n] →
        u.shape = [n, m] ∧ (∀ i < m, ∀ j < n, u.get [j, i] = a.get [i, j]) ∧
          u.transpose = .ok a) ∧
      ((∀ x y : α, x * y = y * x) → ∀ c, a.matMul b = .ok c →
        ∃ at' bt d, a.transpose = .ok at' ∧ b.transpose = .ok bt ∧ bt.matMul at' = .ok d ∧
          c.transpose = .ok d) := by
  refine ⟨matMul_isOk_iff, fun e => matMul_error_iff, fun c m k n made ha hb => ?_,
    transpose_isOk_iff, fun e => transpose_error_iff, fun u m n made ha => ?_,
    fun commute c made => transpose_matMul commute made⟩
  · exact ⟨(coord_matMul made ha hb).1, fun i hi j hj => get_matMul made ha hb hi hj⟩
  · refine ⟨(coord_transpose made ha).1, fun i hi j hj => ?_, transpose_transpose made⟩
    exact get_transpose made ha hi hj

end Entries

/-- Matrices of the shapes `[2, 3]` and `[3, 2]`. -/
def wide : Tensor Int := ⟨[2, 3], [1, 2, 3, 4, 5, 6], rfl⟩

def tall : Tensor Int := ⟨[3, 2], [1, 0, 2, 1, 0, 3], rfl⟩

/-- Their product has one number in row 1 and column 0, and its transpose is the product of the
transposes. -/
theorem wide_times_tall :
    ∃ c, wide.matMul tall = .ok c ∧ c.shape = [2, 2] ∧ c.get [1, 0] = .ok 14 ∧
      ∃ wt tt d, wide.transpose = .ok wt ∧ wt.transpose = .ok wide ∧ tall.transpose = .ok tt ∧
        tt.matMul wt = .ok d ∧ c.transpose = .ok d := by
  obtain ⟨isOk, -, product, -, -, transposed, turned⟩ := product_and_transpose wide tall
  obtain ⟨c, made⟩ := isOk.mpr ⟨2, 3, 2, rfl, rfl⟩
  obtain ⟨shape, numbers⟩ := product c 2 3 2 made rfl rfl
  obtain ⟨wt, tt, d, hwt, htt, hd, same⟩ := turned Int.mul_comm c made
  obtain ⟨-, -, back⟩ := transposed wt 2 3 hwt rfl
  exact ⟨c, made, shape, numbers 1 (by decide) 0 (by decide), wt, tt, d, hwt, back, htt, hd, same⟩

end GradientReplay.Tensor
