import GradientReplay.Function.Library
import Mathlib.Algebra.Order.Field.Basic
import Mathlib.Algebra.Order.Ring.Rat
import Mathlib.Tactic.FieldSimp
import Mathlib.Tactic.Linarith
import Mathlib.Tactic.NormNum
import Mathlib.Tactic.Positivity
import Mathlib.Tactic.Ring

/-!
Derivatives as slopes.

A function has a slope at a point if near it the function is the straight line of that slope, up to
a multiple of the square of the distance (`HasSlope`). There is at most one such number
(`HasSlope.unique`). Three shapes cover the functions that need only arithmetic and comparison: a
polynomial of degree two (`hasSlope_of_quadratic`), two straight lines that meet at a point
(`Bent.hasSlope_iff`), and the reciprocal (`UnaryFunction.reciprocal_hasSlope_iff`). Their
derivatives are the slopes everywhere but at kinks and poles, where there is none
(`arithmetic_hasSlope_iff`).
-/

namespace GradientReplay

/-! ### The functions that need only arithmetic and comparison -/

section Kinds

variable {α : Type} [Zero α] [One α] [Neg α] [Add α] [Sub α] [Mul α] [Div α] [BEq α] [LE α]
  [DecidableLE α] [LT α] [DecidableLT α]

/-- The function of a kind over any numbers, if it needs only arithmetic and comparison. -/
def UnaryKind.arithmetic? : UnaryKind → Option (UnaryFunction α)
  | .linear => some .linear
  | .relu => some .relu
  | .abs => some .abs
  | .square => some .square
  | .reciprocal => some .reciprocal
  | .sigmoid | .tanh | .exp | .log | .sqrt | .sin | .cos | .softplus => none

/-- The function of a kind over any numbers, if it needs only arithmetic and comparison. -/
def BinaryKind.arithmetic? : BinaryKind → Option (BinaryFunction α)
  | .meanSquaredError => some .meanSquaredError
  | .meanAbsoluteError => some .meanAbsoluteError
  | .max => some .max
  | .min => some .min
  | .crossEntropy | .pow => none

end Kinds

/-- The kinks and poles of a unary function. -/
def UnaryKind.Singular {α : Type} [Zero α] (x : α) : UnaryKind → Prop
  | .relu | .abs | .reciprocal => x = 0
  | _ => False

/-- The kinks of a binary function in its first argument. -/
def BinaryKind.Singular {α : Type} (x c : α) : BinaryKind → Prop
  | .meanAbsoluteError | .max | .min => x = c
  | _ => False

/-- Over doubles it is the function that the library applies. -/
theorem UnaryKind.function_of_arithmetic {kind : UnaryKind} {f : UnaryFunction Float}
    (arithmetic : kind.arithmetic? = some f) : kind.function = f := by
  cases kind <;> cases arithmetic <;> rfl

/-- Over doubles it is the function that the library applies. -/
theorem BinaryKind.function_of_arithmetic {kind : BinaryKind} {f : BinaryFunction Float}
    (arithmetic : kind.arithmetic? = some f) : kind.function = f := by
  cases kind <;> cases arithmetic <;> rfl

/-! ### Slopes -/

variable {α : Type} [Field α] [LinearOrder α]

/-- Near `x` the function is the straight line of this slope, up to a multiple of the square of the
distance. -/
def HasSlope (f : α → α) (x s : α) : Prop :=
  ∃ d > 0, ∃ K, ∀ h, |h| < d → |f (x + h) - f x - s * h| ≤ K * h * h

/-- The same on one side of `x`: to the right for `side = 1`, to the left for `side = -1`. -/
def HasSlopeAlong (side : α) (f : α → α) (x s : α) : Prop :=
  ∃ d > 0, ∃ K, ∀ t, 0 < t → t < d → |f (x + side * t) - f x - s * (side * t)| ≤ K * t * t

variable [IsStrictOrderedRing α] {f : α → α} {x s s' : α}

/-- What is below a multiple of the square near zero has no linear part. -/
theorem eq_zero_of_le_square {d e K : α} (hd : 0 < d)
    (small : ∀ t, 0 < t → t < d → |e| * t ≤ K * t * t) : e = 0 := by
  by_contra nonzero
  have he : 0 < |e| := abs_pos.mpr nonzero
  have hK : 0 < |K| + 1 := by positivity
  -- So near to zero the multiple of the square is below the linear part.
  let t := min (d / 2) (|e| / (|K| + 1))
  have ht : 0 < t := lt_min (half_pos hd) (div_pos he hK)
  have near : t < d := (min_le_left _ _).trans_lt (half_lt_self hd)
  have linear : |e| ≤ K * t := le_of_mul_le_mul_right (small t ht near) ht
  have below : (|K| + 1) * t ≤ |e| := by
    rw [mul_comm]
    exact (le_div_iff₀ hK).mp (min_le_right _ _)
  have upper : K * t ≤ |K| * t := mul_le_mul_of_nonneg_right (le_abs_self K) ht.le
  linarith

theorem HasSlopeAlong.unique {side : α} (unit : |side| = 1) (hs : HasSlopeAlong side f x s)
    (hs' : HasSlopeAlong side f x s') : s = s' := by
  obtain ⟨d, hd, K, near⟩ := hs
  obtain ⟨d', hd', K', near'⟩ := hs'
  refine sub_eq_zero.mp (eq_zero_of_le_square (K := K + K') (lt_min hd hd') fun t ht small => ?_)
  have first := near t ht (small.trans_le (min_le_left _ _))
  have second := near' t ht (small.trans_le (min_le_right _ _))
  calc |s - s'| * t = |(s - s') * (side * t)| := by
        rw [abs_mul, abs_mul, unit, one_mul, abs_of_pos ht]
    _ = |(f (x + side * t) - f x - s' * (side * t)) -
          (f (x + side * t) - f x - s * (side * t))| := by
        congr 1
        ring
    _ ≤ |f (x + side * t) - f x - s' * (side * t)| + |f (x + side * t) - f x - s * (side * t)| :=
        abs_sub _ _
    _ ≤ K' * t * t + K * t * t := add_le_add second first
    _ = (K + K') * t * t := by ring

theorem HasSlope.along (hs : HasSlope f x s) {side : α} (unit : |side| = 1) :
    HasSlopeAlong side f x s := by
  obtain ⟨d, hd, K, near⟩ := hs
  refine ⟨d, hd, K, fun t ht small => ?_⟩
  have square : side * side = 1 := by rw [← abs_mul_abs_self, unit, one_mul]
  have bound := near (side * t) (by rw [abs_mul, unit, one_mul, abs_of_pos ht]; exact small)
  calc |f (x + side * t) - f x - s * (side * t)| ≤ K * (side * t) * (side * t) := bound
    _ = K * t * t * (side * side) := by ring
    _ = K * t * t := by rw [square, mul_one]

/-- A function has at most one slope at a point. -/
theorem HasSlope.unique (hs : HasSlope f x s) (hs' : HasSlope f x s') : s = s' :=
  HasSlopeAlong.unique abs_one (hs.along abs_one) (hs'.along abs_one)

theorem HasSlope.iff_eq (hs : HasSlope f x s) : HasSlope f x s' ↔ s' = s := by
  constructor
  · intro hs'
    exact hs'.unique hs
  · rintro rfl
    exact hs

/-- A function with a slope is bounded near the point. -/
theorem HasSlope.bounded (hs : HasSlope f x s) :
    ∃ d > 0, ∃ B, ∀ h, |h| < d → |f (x + h) - f x| ≤ B := by
  obtain ⟨d, hd, K, near⟩ := hs
  refine ⟨d, hd, |K| * d * d + |s| * d, fun h small => ?_⟩
  have square : K * h * h ≤ |K| * d * d := by
    calc K * h * h = K * (|h| * |h|) := by rw [abs_mul_abs_self, mul_assoc]
      _ ≤ |K| * (|h| * |h|) := by
          exact mul_le_mul_of_nonneg_right (le_abs_self K) (by positivity)
      _ ≤ |K| * (d * d) := by gcongr
      _ = |K| * d * d := by rw [mul_assoc]
  calc |f (x + h) - f x| = |(f (x + h) - f x - s * h) + s * h| := by rw [sub_add_cancel]
    _ ≤ |f (x + h) - f x - s * h| + |s * h| := abs_add_le _ _
    _ ≤ |K| * d * d + |s| * d := by
        rw [abs_mul]
        gcongr
        exact (near h small).trans square

/-! ### Polynomials of degree two -/

theorem hasSlope_of_quadratic {q : α} (expand : ∀ h, f (x + h) = f x + s * h + q * h * h) :
    HasSlope f x s := by
  refine ⟨1, one_pos, |q|, fun h _ => ?_⟩
  have rest : f (x + h) - f x - s * h = q * (h * h) := by
    rw [expand]
    ring
  rw [rest, abs_mul, abs_mul_self, mul_assoc]

/-! ### Two straight lines that meet -/

/-- The function has slope `a` below `c` and slope `b` above. -/
structure Bent (f : α → α) (c a b : α) : Prop where
  below : ∀ y, y < c → f y = f c + a * (y - c)
  above : ∀ y, c ≤ y → f y = f c + b * (y - c)

/-- Nearer to `x` than `c` is, a point lies on the same side of `c`. -/
theorem lt_iff_of_near {c h : α} (near : |h| < |x - c|) :
    x + h < c ↔ x < c := by
  obtain ⟨left, right⟩ := abs_lt.mp near
  rcases lt_or_ge x c with hx | hx
  · rw [abs_of_neg (sub_neg.mpr hx)] at right
    exact iff_of_true (by linarith) hx
  · rw [abs_of_nonneg (sub_nonneg.mpr hx)] at left
    exact iff_of_false (by linarith) (not_lt.mpr hx)

namespace Bent

variable {c a b : α}

theorem hasSlope (bent : Bent f c a b) (apart : x ≠ c) :
    HasSlope f x (if x < c then a else b) := by
  refine ⟨|x - c|, abs_pos.mpr (sub_ne_zero.mpr apart), 0, fun h near => ?_⟩
  have side := lt_iff_of_near near
  have straight : f (x + h) - f x - (if x < c then a else b) * h = 0 := by
    split
    · rename_i hx
      rw [bent.below _ (side.mpr hx), bent.below x hx]
      ring
    · rename_i hx
      rw [bent.above _ (not_lt.mp fun there => hx (side.mp there)), bent.above x (not_lt.mp hx)]
      ring
  rw [straight, abs_zero, zero_mul, zero_mul]

theorem left (bent : Bent f c a b) : HasSlopeAlong (-1) f c a := by
  refine ⟨1, one_pos, 0, fun t ht _ => ?_⟩
  have straight : f (c + -1 * t) - f c - a * (-1 * t) = 0 := by
    rw [bent.below (c + -1 * t) (by linarith)]
    ring
  rw [straight, abs_zero, zero_mul, zero_mul]

theorem right (bent : Bent f c a b) : HasSlopeAlong 1 f c b := by
  refine ⟨1, one_pos, 0, fun t ht _ => ?_⟩
  have straight : f (c + 1 * t) - f c - b * (1 * t) = 0 := by
    rw [bent.above (c + 1 * t) (by linarith)]
    ring
  rw [straight, abs_zero, zero_mul, zero_mul]

/-- Where the lines meet at an angle there is no slope. -/
theorem no_slope (bent : Bent f c a b) (angle : a ≠ b) : ¬ HasSlope f c s := by
  intro hs
  have fromLeft := HasSlopeAlong.unique (by simp) (hs.along (by simp)) bent.left
  have fromRight := HasSlopeAlong.unique (by simp) (hs.along (by simp)) bent.right
  exact angle (fromLeft.symm.trans fromRight)

theorem hasSlope_iff (bent : Bent f c a b) (angle : a ≠ b) :
    HasSlope f x s ↔ x ≠ c ∧ s = if x < c then a else b := by
  by_cases here : x = c
  · subst here
    exact iff_of_false (bent.no_slope angle) fun h => h.1 rfl
  · rw [(bent.hasSlope here).iff_eq]
    exact ⟨fun same => ⟨here, same⟩, fun h => h.2⟩

end Bent

/-! ### Unary functions -/

omit [IsStrictOrderedRing α] in
theorem absolute_bent : Bent (absolute : α → α) 0 (-1) 1 where
  below := by
    intro y hy
    simp only [absolute, if_pos hy.le, le_refl, if_true]
    ring
  above := by
    intro y hy
    rcases hy.eq_or_lt with rfl | hy
    · simp
    · simp only [absolute, if_neg (not_le.mpr hy), le_refl, if_true]
      ring

theorem signOf_eq (x : α) : signOf x = if x < 0 then -1 else 1 := by
  have same : (1 / x < 0) ↔ x < 0 := by rw [one_div, inv_lt_zero]
  simp only [signOf, BEq.rfl, if_true, same, or_self]

namespace UnaryFunction

theorem linear_hasSlope (x : α) :
    HasSlope (linear (α := α)).value x ((linear (α := α)).derivative x) :=
  hasSlope_of_quadratic (q := 0) fun h => by
    change x + h = x + 1 * h + 0 * h * h
    ring

theorem square_hasSlope (x : α) :
    HasSlope (square (α := α)).value x ((square (α := α)).derivative x) :=
  hasSlope_of_quadratic (q := 1) fun h => by
    change (x + h) * (x + h) = x * x + (1 + 1) * x * h + 1 * h * h
    ring

omit [IsStrictOrderedRing α] in
theorem relu_bent : Bent (relu (α := α)).value 0 0 1 where
  below := by
    intro y hy
    simp [relu, hy]
  above := by
    intro y hy
    simp [relu, not_lt.mpr hy]

/-- Away from zero the reciprocal is close to a straight line. -/
theorem reciprocal_hasSlope (apart : x ≠ 0) :
    HasSlope (reciprocal (α := α)).value x ((reciprocal (α := α)).derivative x) := by
  have hx : 0 < |x| := abs_pos.mpr apart
  refine ⟨|x| / 2, half_pos hx, 2 / (|x| * |x| * |x|), fun h near => ?_⟩
  -- At least half of the distance from the pole is left.
  have far : |x| / 2 ≤ |x + h| := by
    have triangle := abs_sub_abs_le_abs_sub x (-h)
    rw [abs_neg, sub_neg_eq_add] at triangle
    linarith
  have positive : 0 < |x + h| := (half_pos hx).trans_le far
  have nonzero : x + h ≠ 0 := abs_pos.mp positive
  have rest : 1 / (x + h) - 1 / x - -1 / (x * x) * h = h * h / (x * x * (x + h)) := by
    field_simp
    ring
  calc |1 / (x + h) - 1 / x - -1 / (x * x) * h| = |h| * |h| / (|x| * |x| * |x + h|) := by
        rw [rest, abs_div, abs_mul, abs_mul, abs_mul]
    _ ≤ |h| * |h| / (|x| * |x| * (|x| / 2)) := by gcongr
    _ = 2 / (|x| * |x| * |x|) * h * h := by
        rw [abs_mul_abs_self, mul_assoc _ h h]
        field_simp

/-- Near its pole the reciprocal is not bounded. -/
theorem reciprocal_no_slope : ¬ HasSlope (reciprocal (α := α)).value 0 s := by
  intro hs
  obtain ⟨d, hd, B, near⟩ := hs.bounded
  have hB : 0 < |B| + 1 := by positivity
  -- So near to the pole the reciprocal is above the bound.
  let t := min (d / 2) (1 / (|B| + 1))
  have ht : 0 < t := lt_min (half_pos hd) (one_div_pos.mpr hB)
  have small : |t| < d := by
    rw [abs_of_pos ht]
    exact (min_le_left _ _).trans_lt (half_lt_self hd)
  have bound := near t small
  have value : |1 / (0 + t) - 1 / 0| = 1 / t := by
    rw [zero_add, div_zero, sub_zero, abs_of_pos (one_div_pos.mpr ht)]
  have large : |B| + 1 ≤ 1 / t := (le_one_div hB ht).mpr (min_le_right _ _)
  have bound : 1 / t ≤ B := value ▸ bound
  have := le_abs_self B
  linarith

theorem reciprocal_hasSlope_iff :
    HasSlope (reciprocal (α := α)).value x s ↔ x ≠ 0 ∧ s = (reciprocal (α := α)).derivative x := by
  by_cases pole : x = 0
  · subst pole
    exact iff_of_false reciprocal_no_slope fun h => h.1 rfl
  · rw [(reciprocal_hasSlope pole).iff_eq]
    exact ⟨fun same => ⟨pole, same⟩, fun h => h.2⟩

end UnaryFunction

/-! ### Binary functions in their first argument -/

namespace BinaryFunction

variable {c : α}

theorem meanSquaredError_hasSlope (x c : α) :
    HasSlope ((meanSquaredError (α := α)).value · c) x
      ((meanSquaredError (α := α)).derivative x c) :=
  hasSlope_of_quadratic (q := 1 / 2) fun h => by
    change (x + h - c) * (x + h - c) / (1 + 1) =
      (x - c) * (x - c) / (1 + 1) + (x - c) * h + 1 / 2 * h * h
    ring

theorem meanAbsoluteError_bent : Bent ((meanAbsoluteError (α := α)).value · c) c (-1) 1 where
  below := by
    intro y hy
    have shifted := absolute_bent.below (y - c) (sub_neg.mpr hy)
    simpa [meanAbsoluteError] using shifted
  above := by
    intro y hy
    have shifted := absolute_bent.above (y - c) (sub_nonneg.mpr hy)
    simpa [meanAbsoluteError] using shifted

omit [IsStrictOrderedRing α] in
theorem max_bent : Bent ((max (α := α)).value · c) c 0 1 where
  below := by
    intro y hy
    simp [max, larger, hy]
  above := by
    intro y hy
    simp [max, larger, not_lt.mpr hy]

omit [IsStrictOrderedRing α] in
theorem min_bent : Bent ((min (α := α)).value · c) c 1 0 where
  below := by
    intro y hy
    simp [min, smaller, not_lt.mpr hy.le]
  above := by
    intro y hy
    rcases hy.eq_or_lt with rfl | hy
    · simp
    · simp [min, smaller, hy]

end BinaryFunction

/-! ### Derivatives against slopes -/

theorem UnaryKind.hasSlope_iff {kind : UnaryKind} {f : UnaryFunction α}
    (arithmetic : kind.arithmetic? = some f) :
    HasSlope f.value x s ↔ ¬ kind.Singular x ∧ s = f.derivative x := by
  cases kind with
  | linear =>
      cases arithmetic
      exact (UnaryFunction.linear_hasSlope x).iff_eq.trans (and_iff_right not_false).symm
  | square =>
      cases arithmetic
      exact (UnaryFunction.square_hasSlope x).iff_eq.trans (and_iff_right not_false).symm
  | relu =>
      cases arithmetic
      exact UnaryFunction.relu_bent.hasSlope_iff zero_ne_one
  | abs =>
      cases arithmetic
      change HasSlope absolute x s ↔ x ≠ 0 ∧ s = signOf x
      rw [signOf_eq]
      exact absolute_bent.hasSlope_iff (neg_one_lt_zero.trans one_pos).ne
  | reciprocal =>
      cases arithmetic
      exact UnaryFunction.reciprocal_hasSlope_iff
  | sigmoid | tanh | exp | log | sqrt | sin | cos | softplus => cases arithmetic

theorem BinaryKind.hasSlope_iff {kind : BinaryKind} {f : BinaryFunction α} {c : α}
    (arithmetic : kind.arithmetic? = some f) :
    HasSlope (f.value · c) x s ↔ ¬ kind.Singular x c ∧ s = f.derivative x c := by
  cases kind with
  | meanSquaredError =>
      cases arithmetic
      exact (BinaryFunction.meanSquaredError_hasSlope x c).iff_eq.trans
        (and_iff_right not_false).symm
  | meanAbsoluteError =>
      cases arithmetic
      change HasSlope _ x s ↔ x ≠ c ∧ s = signOf (x - c)
      rw [signOf_eq,
        BinaryFunction.meanAbsoluteError_bent.hasSlope_iff (neg_one_lt_zero.trans one_pos).ne]
      simp only [sub_neg]
  | max =>
      cases arithmetic
      change HasSlope _ x s ↔ x ≠ c ∧ s = if c ≤ x then 1 else 0
      rw [BinaryFunction.max_bent.hasSlope_iff zero_ne_one]
      simp only [← not_lt, ite_not]
  | min =>
      cases arithmetic
      change HasSlope _ x s ↔ x ≠ c ∧ s = if x ≤ c then 1 else 0
      rw [BinaryFunction.min_bent.hasSlope_iff one_ne_zero]
      refine and_congr_right fun apart => ?_
      simp only [apart.le_iff_lt]
  | crossEntropy | pow => cases arithmetic

/-- Each function that needs only arithmetic and comparison has at each point that is no kink and no
pole one slope, which is its derivative there, and at a kink or a pole it has none. The same is true
of the binary ones in their first argument. -/
theorem arithmetic_hasSlope_iff :
    (∀ (kind : UnaryKind) (f : UnaryFunction α), kind.arithmetic? = some f →
      ∀ x s, HasSlope f.value x s ↔ ¬ kind.Singular x ∧ s = f.derivative x) ∧
    ∀ (kind : BinaryKind) (f : BinaryFunction α), kind.arithmetic? = some f →
      ∀ x c s, HasSlope (f.value · c) x s ↔ ¬ kind.Singular x c ∧ s = f.derivative x c := by
  constructor
  · intro kind f arithmetic x s
    exact UnaryKind.hasSlope_iff arithmetic
  · intro kind f arithmetic x c s
    exact BinaryKind.hasSlope_iff arithmetic

/-- Over the rationals: below zero, at zero, and next to a larger argument. -/
theorem rational_slopes :
    HasSlope (UnaryFunction.relu (α := ℚ)).value (-3) 0 ∧
      (¬ ∃ s, HasSlope (UnaryFunction.relu (α := ℚ)).value 0 s) ∧
      HasSlope (UnaryFunction.reciprocal (α := ℚ)).value 2 (-1 / 4) ∧
      HasSlope ((BinaryFunction.min (α := ℚ)).value · 5) 2 1 := by
  obtain ⟨unary, binary⟩ := arithmetic_hasSlope_iff (α := ℚ)
  refine ⟨(unary .relu _ rfl _ _).mpr ⟨?_, ?_⟩, ?_, (unary .reciprocal _ rfl _ _).mpr ⟨?_, ?_⟩,
    (binary .min _ rfl _ _ _).mpr ⟨?_, ?_⟩⟩
  · simp [UnaryKind.Singular]
  · simp [UnaryFunction.relu]
  · rintro ⟨s, kink⟩
    exact ((unary .relu _ rfl 0 s).mp kink).1 rfl
  · simp [UnaryKind.Singular]
  · norm_num [UnaryFunction.reciprocal]
  · simp [BinaryKind.Singular]
  · norm_num [BinaryFunction.min]

end GradientReplay
