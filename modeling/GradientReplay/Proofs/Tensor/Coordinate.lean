import GradientReplay.Tensor.Elementwise
import GradientReplay.Tensor.Matrix
import Mathlib.Algebra.BigOperators.Ring.Finset
import Mathlib.Algebra.Field.Basic
import Mathlib.Tactic.Ring

/-!
Tensors read at their offsets.

An elementwise operation gives at each offset of the result the function of the numbers that its
operands have there, an operand of a single element having it everywhere (`zipWith_ok`,
`update_ok`). A matrix product sums along the shared axis (`matMul_eq`) and a transpose swaps the axes
(`transpose_ok`). The inner product `pair` of a tensor with numbers
given by offset is what the laws of gradients are stated in.
-/

namespace GradientReplay

/-! ### Shapes that go together -/

namespace Shape

/-- The offset of an operand of this shape that stands at an offset of the result. -/
def place (s : Shape) (k : Nat) : Nat := if s.size = 1 then 0 else k

/-- A tensor of shape `s` goes with a result of shape `r`: it has a single element, or the shape
of the result. -/
def SpreadsOver (s r : Shape) : Prop := s.size = 1 ∨ s = r

/-- Equal shapes, or two shapes of a single element. -/
def Alike (s r : Shape) : Prop := s = r ∨ s.size = 1 ∧ r.size = 1

/-- The shape of the result of an elementwise operation. -/
def common (s r : Shape) : Shape := if s = r then s else if r.size = 1 then s else r

variable {s r u : Shape}

theorem Alike.refl (s : Shape) : s.Alike s := .inl rfl

theorem Alike.size_eq (h : s.Alike r) : s.size = r.size := by
  rcases h with rfl | ⟨hs, hr⟩
  · rfl
  · rw [hs, hr]

theorem Alike.trans (h : s.Alike r) (h' : r.Alike u) : s.Alike u := by
  rcases h with rfl | ⟨hs, hr⟩
  · exact h'
  · exact .inr ⟨hs, h'.size_eq ▸ hr⟩

theorem Alike.spreadsOver (h : s.Alike r) : s.SpreadsOver r := by
  rcases h with rfl | ⟨hs, -⟩
  · exact .inr rfl
  · exact .inl hs

/-- Over a result of more than one element, and over one of none, `Alike` is equality. -/
theorem Alike.eq (h : s.Alike r) (many : r.size ≠ 1) : s = r := by
  rcases h with rfl | ⟨-, hr⟩
  · rfl
  · exact absurd hr many

theorem SpreadsOver.alike (h : s.SpreadsOver r) (single : r.size = 1) : s.Alike r := by
  rcases h with hs | rfl
  · exact .inr ⟨hs, single⟩
  · exact .refl s

theorem place_of_single (single : s.size = 1) (k : Nat) : s.place k = 0 := if_pos single

theorem place_of_many (many : s.size ≠ 1) (k : Nat) : s.place k = k := if_neg many

/-- At an offset inside a shape, the place is the offset itself. -/
theorem place_of_lt {k : Nat} (h : k < s.size) : s.place k = k := by
  unfold place
  split
  · omega
  · rfl

/-- The place of an operand is inside it. -/
theorem SpreadsOver.place_lt (h : s.SpreadsOver r) {k : Nat} (hk : k < r.size) :
    s.place k < s.size := by
  rcases h with single | rfl
  · rw [place_of_single single, single]
    exact Nat.zero_lt_one
  · rw [place_of_lt hk]
    exact hk

/-- Operands that spread over a result, one of which is like it, have a common shape like it. -/
theorem common_alike (hs : s.SpreadsOver u) (hr : r.SpreadsOver u)
    (one : s.Alike u ∨ r.Alike u) : (s.common r).Alike u := by
  by_cases single : u.size = 1
  · unfold common
    split
    · exact hs.alike single
    · split
      · exact hs.alike single
      · exact hr.alike single
  · unfold common
    rcases hs with hs | rfl <;> rcases hr with hr | rfl
    · -- Two operands of a single element are not like a result of several.
      rcases one with h | h
      · exact absurd (h.size_eq ▸ hs) single
      · exact absurd (h.size_eq ▸ hr) single
    · split
      · rename_i same
        exact .inl same
      · exact .refl _
    · split
      · exact .refl _
      · exact .refl _
    · exact .inl (if_pos rfl)

end Shape

namespace Tensor

variable {α : Type}

theorem length_eq_size (t : Tensor α) : t.size = t.shape.size := t.length_data

theorem isSingle_iff (t : Tensor α) : t.isSingle = true ↔ t.shape.size = 1 := by
  simp [isSingle, length_eq_size]

/-! ### Numbers at offsets -/

section Coordinates

variable [Zero α]

/-- The number at an offset; zero outside the tensor. -/
def coord (t : Tensor α) (k : Nat) : α := t.data.getD k 0

/-- The number that an operand has at an offset of the result. -/
def spread (t : Tensor α) (k : Nat) : α := t.coord (t.shape.place k)

theorem spread_of_lt {t : Tensor α} {k : Nat} (h : k < t.shape.size) : t.spread k = t.coord k := by
  rw [spread, Shape.place_of_lt h]

theorem coord_map (f : α → α) (t : Tensor α) {k : Nat} (h : k < t.shape.size) :
    (t.map f).coord k = f (t.coord k) := by
  have hk : k < t.data.length := t.length_data ▸ h
  simp [coord, map, hk]

theorem coord_fill {shape : Shape} {x : α} {k : Nat} (h : k < shape.size) :
    (fill shape x).coord k = x := by
  simp [coord, fill, h]

theorem coord_zeros (shape : Shape) (k : Nat) : (zeros shape : Tensor α).coord k = 0 := by
  unfold coord zeros fill
  by_cases h : k < shape.size
  · simp [h]
  · simp [Nat.le_of_not_lt h]

theorem coord_generate {shape : Shape} {f : Nat → α} {k : Nat} (h : k < shape.size) :
    (generate shape f).coord k = f k := by
  simp [coord, generate, h]

theorem data_eq_map_coord (t : Tensor α) :
    t.data = (List.range t.shape.size).map t.coord := by
  refine List.ext_getElem (by simp [t.length_data]) fun k hk _ => ?_
  simp [coord, hk]

theorem number?_of_single {t : Tensor α} (single : t.shape.size = 1) :
    t.number? = some (t.coord 0) := by
  have length : t.data.length = 1 := t.length_data.trans single
  obtain ⟨x, hx⟩ := List.length_eq_one_iff.mp length
  simp [number?, coord, hx]

omit [Zero α] in
theorem number?_of_many {t : Tensor α} (many : t.shape.size ≠ 1) : t.number? = none := by
  have length : t.data.length ≠ 1 := fun h => many (t.length_data.symm.trans h)
  unfold number?
  split
  · rename_i x hx
    exact absurd (by rw [hx]; rfl) length
  · rfl

/-! ### Elementwise operations -/

/-- The number that each operand has at an offset decides the result there. -/
theorem zipWith_ok {operator : Operator} {f : α → α → α} {a b c : Tensor α}
    (h : zipWith operator f a b = .ok c) :
    a.shape.SpreadsOver c.shape ∧ b.shape.SpreadsOver c.shape ∧
      c.shape = a.shape.common b.shape ∧
      ∀ k < c.shape.size, c.coord k = f (a.spread k) (b.spread k) := by
  unfold zipWith at h
  split at h
  · rename_i same
    cases h
    refine ⟨.inr rfl, .inr same.symm, (if_pos same).symm, fun k (hk : k < a.shape.size) => ?_⟩
    have ha : k < a.data.length := a.length_data ▸ hk
    have hb : k < b.data.length := b.length_data ▸ same ▸ hk
    rw [spread_of_lt hk, spread_of_lt (same ▸ hk)]
    simp [coord, ha, hb]
  · rename_i differ
    by_cases hb : b.shape.size = 1
    · rw [number?_of_single hb] at h
      cases h
      refine ⟨.inr rfl, .inl hb, ?_, fun k (hk : k < a.shape.size) => ?_⟩
      · simp [Shape.common, differ, hb, map]
      · rw [coord_map _ _ hk, spread_of_lt hk, spread, Shape.place_of_single hb]
    · rw [number?_of_many hb] at h
      by_cases ha : a.shape.size = 1
      · rw [number?_of_single ha] at h
        cases h
        refine ⟨.inl ha, .inr rfl, ?_, fun k (hk : k < b.shape.size) => ?_⟩
        · simp [Shape.common, differ, hb, map]
        · rw [coord_map _ _ hk, spread_of_lt hk, spread, Shape.place_of_single ha]
      · rw [number?_of_many ha] at h
        cases h

/-- In place the left operand keeps its shape. -/
theorem update_ok {operator : Operator} {f : α → α → α} {a b c : Tensor α}
    (h : update operator f a b = .ok c) :
    b.shape.SpreadsOver a.shape ∧ c.shape = a.shape ∧
      ∀ k < a.shape.size, c.coord k = f (a.coord k) (b.spread k) := by
  unfold update at h
  split at h
  · rename_i same
    cases h
    refine ⟨.inr same.symm, rfl, fun k hk => ?_⟩
    have ha : k < a.data.length := a.length_data ▸ hk
    have hb : k < b.data.length := b.length_data ▸ same ▸ hk
    rw [spread_of_lt (same ▸ hk)]
    simp [coord, ha, hb]
  · by_cases hb : b.shape.size = 1
    · rw [number?_of_single hb] at h
      cases h
      refine ⟨.inl hb, rfl, fun k hk => ?_⟩
      rw [coord_map _ _ hk, spread, Shape.place_of_single hb]
    · rw [number?_of_many hb] at h
      cases h

theorem div_ok [BEq α] [Div α] {a b c : Tensor α} (h : a.div b = .ok c) :
    zipWith .divide (· / ·) a b = .ok c := by
  unfold div at h
  split at h
  · cases h
  · exact h

/-- Operands that spread over a shape, one of which is like it, give a result like it. -/
theorem zipWith_alike {operator : Operator} {f : α → α → α} {a b c : Tensor α} {r : Shape}
    (h : zipWith operator f a b = .ok c) (ha : a.shape.SpreadsOver r) (hb : b.shape.SpreadsOver r)
    (one : a.shape.Alike r ∨ b.shape.Alike r) : c.shape.Alike r := by
  rw [(zipWith_ok h).2.2.1]
  exact Shape.common_alike ha hb one

end Coordinates

/-! ### Matrices -/

theorem dimensions_ok {operator : Operator} {t : Tensor α} {m n : Nat}
    (h : t.dimensions operator = .ok (m, n)) : t.shape = [m, n] := by
  unfold dimensions at h
  split at h
  · rename_i shape
    cases h
    exact shape
  · cases h

theorem element_toArray [Zero α] (t : Tensor α) (k : Nat) :
    element t.data.toArray k = t.coord k := by
  simp [element, coord]

theorem matMul_eq [Zero α] [Add α] [Mul α] {a b c : Tensor α} (h : a.matMul b = .ok c) :
    ∃ m k n, a.shape = [m, k] ∧ b.shape = [k, n] ∧
      c = generate [m, n] fun p =>
        innerProduct k (fun l => a.coord (p / n * k + l)) fun l => b.coord (l * n + p % n) := by
  unfold matMul at h
  cases ha : a.dimensions .matMul with
  | error e => rw [ha] at h; cases h
  | ok mk =>
      cases hb : b.dimensions .matMul with
      | error e => rw [ha, hb] at h; cases h
      | ok kn =>
          obtain ⟨m, k⟩ := mk
          obtain ⟨k', n⟩ := kn
          rw [ha, hb] at h
          by_cases inner : k = k'
          · subst inner
            refine ⟨m, k, n, dimensions_ok ha, dimensions_ok hb, ?_⟩
            simp only [bind, Except.bind, ne_eq, not_true_eq_false, if_false, element_toArray] at h
            exact (Except.ok.inj h).symm
          · simp [bind, Except.bind, inner] at h

theorem matMul_shape [Zero α] [Add α] [Mul α] {a b c : Tensor α} (h : a.matMul b = .ok c) :
    ∃ m k n, a.shape = [m, k] ∧ b.shape = [k, n] ∧ c.shape = [m, n] := by
  obtain ⟨m, k, n, ha, hb, rfl⟩ := matMul_eq h
  exact ⟨m, k, n, ha, hb, rfl⟩

theorem transpose_ok [Zero α] {t c : Tensor α} (h : t.transpose = .ok c) :
    ∃ m n, t.shape = [m, n] ∧ c.shape = [n, m] ∧
      ∀ p < n * m, c.coord p = t.coord (p % m * n + p / m) := by
  unfold transpose at h
  cases ht : t.dimensions .transpose with
  | error e => rw [ht] at h; cases h
  | ok mn =>
      obtain ⟨m, n⟩ := mn
      rw [ht] at h
      cases h
      refine ⟨m, n, dimensions_ok ht, rfl, fun p hp => ?_⟩
      rw [coord_generate (Shape.size_pair n m ▸ hp), element_toArray]

/-! ### Sums -/

section Sums

open Finset

variable [Semiring α]

/-- The inner product with numbers given by offset. -/
def pair (t : Tensor α) (τ : Nat → α) : α := ∑ k ∈ range t.shape.size, t.coord k * τ k

theorem foldl_range_eq_sum (f : Nat → α) (n : Nat) :
    ((List.range n).map f).foldl (· + ·) 0 = ∑ k ∈ range n, f k := by
  induction n with
  | zero => rfl
  | succ n ih =>
      rw [List.range_succ, List.map_append, List.foldl_append, ih, sum_range_succ]
      rfl

theorem sum_eq (t : Tensor α) : t.sum = ∑ k ∈ range t.shape.size, t.coord k := by
  rw [sum, data_eq_map_coord, foldl_range_eq_sum]

theorem pair_zeros (shape : Shape) (τ : Nat → α) : (zeros shape : Tensor α).pair τ = 0 :=
  sum_eq_zero fun k _ => by rw [coord_zeros, zero_mul]

/-- A sum over the offsets of a matrix is a sum over rows and columns. -/
theorem sum_range_mul (f : Nat → α) (m n : Nat) :
    ∑ p ∈ range (m * n), f p = ∑ i ∈ range m, ∑ j ∈ range n, f (i * n + j) := by
  induction m with
  | zero => simp
  | succ m ih => rw [Nat.succ_mul, sum_range_add, ih, sum_range_succ]

end Sums

end Tensor

end GradientReplay
