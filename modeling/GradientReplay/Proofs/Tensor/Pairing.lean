import GradientReplay.Proofs.Tensor.Fitting

/-!
Inner products of gradients with tangents.

A tangent gives a number to each offset of a tensor. A gradient that reaches a node of a single
element is summed before it is taken (`settle`), so its inner product with the tangent of the node
is that of the gradient itself with the tangent spread over it (`settle_pair`). A gradient that was
combined with a contribution has the sum of the two inner products (`combineGradient_pair`).
-/

namespace GradientReplay

open Finset

/-- A number to each offset of a tensor. -/
abbrev Tangent (α : Type) := Nat → α

/-- The tangent of an operand of a shape, read at the offsets of the result. -/
def Tangent.over {α : Type} (σ : Tangent α) (s : Shape) : Tangent α := fun k => σ (s.place k)

/-- A number as it is added or subtracted. -/
def Sign.apply {α : Type} [Neg α] : Sign → α → α
  | .plus, x => x
  | .minus, x => -x

namespace Tensor

variable {α : Type} [CommRing α]

/-! ### Linearity -/

theorem pair_congr {t : Tensor α} {σ τ : Tangent α} (same : ∀ k < t.shape.size, σ k = τ k) :
    t.pair σ = t.pair τ := by
  apply sum_congr rfl
  intro k hk
  rw [same k (mem_range.mp hk)]

theorem pair_zero (t : Tensor α) : t.pair 0 = 0 := by
  apply sum_eq_zero
  intro k _
  exact mul_zero _

theorem pair_add (t : Tensor α) (σ τ : Tangent α) :
    t.pair (fun k => σ k + τ k) = t.pair σ + t.pair τ := by
  unfold pair
  rw [← sum_add_distrib]
  apply sum_congr rfl
  intro k _
  exact mul_add _ _ _

theorem pair_sub (t : Tensor α) (σ τ : Tangent α) :
    t.pair (fun k => σ k - τ k) = t.pair σ - t.pair τ := by
  unfold pair
  rw [← sum_sub_distrib]
  apply sum_congr rfl
  intro k _
  exact mul_sub _ _ _

/-- A tensor whose numbers are those of another one times factors pairs with a tangent as that one
does with the tangent times the factors. -/
theorem pair_of_scaled {c g : Tensor α} {factor : Nat → α}
    (size : c.shape.size = g.shape.size)
    (scaled : ∀ k < g.shape.size, c.coord k = g.coord k * factor k) (σ : Tangent α) :
    c.pair σ = g.pair fun k => factor k * σ k := by
  unfold pair
  rw [size]
  apply sum_congr rfl
  intro k hk
  rw [scaled k (mem_range.mp hk), mul_assoc]

theorem pair_neg (g : Tensor α) (σ : Tangent α) : g.neg.pair σ = -g.pair σ := by
  unfold pair
  rw [← sum_neg_distrib]
  apply sum_congr rfl
  intro k hk
  have number : g.neg.coord k = -g.coord k := coord_map (fun x => -x) g (mem_range.mp hk)
  rw [number, neg_mul]

/-! ### Gradients as elementwise operands -/

/-- A gradient like a result, combined with an operand that spreads over it. -/
theorem zipWith_left {operator : Operator} {f : α → α → α} {g b c : Tensor α} {r : Shape}
    (h : zipWith operator f g b = .ok c) (alike : g.shape.Alike r) (spreads : b.shape.SpreadsOver r) :
    c.shape.Alike r ∧ c.shape.size = g.shape.size ∧
      ∀ k < g.shape.size, c.coord k = f (g.coord k) (b.spread k) := by
  have like := zipWith_alike h alike.spreadsOver spreads (.inl alike)
  have size : c.shape.size = g.shape.size := by rw [like.size_eq, alike.size_eq]
  refine ⟨like, size, fun k hk => ?_⟩
  rw [(zipWith_ok h).2.2.2 k (size ▸ hk), spread_of_lt hk]

/-- An operand that spreads over a result, combined with a gradient like it. -/
theorem zipWith_right {operator : Operator} {f : α → α → α} {a g c : Tensor α} {r : Shape}
    (h : zipWith operator f a g = .ok c) (alike : g.shape.Alike r) (spreads : a.shape.SpreadsOver r) :
    c.shape.Alike r ∧ c.shape.size = g.shape.size ∧
      ∀ k < g.shape.size, c.coord k = f (a.spread k) (g.coord k) := by
  have like := zipWith_alike h spreads alike.spreadsOver (.inr alike)
  have size : c.shape.size = g.shape.size := by rw [like.size_eq, alike.size_eq]
  refine ⟨like, size, fun k hk => ?_⟩
  rw [(zipWith_ok h).2.2.2 k (size ▸ hk), spread_of_lt hk]

/-! ### Gradients as nodes take them -/

/-- A gradient as a node of a shape takes it: summed, if the shape has a single place and the
gradient has not. -/
def settle (s : Shape) (g : Tensor α) : Tensor α :=
  if s.size = 1 ∧ g.shape.size ≠ 1 then fill s g.sum else g

theorem fit_eq_settle (n : Node α) (g : Tensor α) : n.fit g = g.settle n.shape := by
  unfold Node.fit settle
  simp only [Node.sums_iff]

theorem settle_shape (g : Tensor α) (s : Shape) : (g.settle s).shape = s.settle g.shape := by
  unfold settle Shape.settle
  split
  · rfl
  · rfl

variable {g : Tensor α} {s r : Shape}

/-- A gradient like the result settles to one like the operand. -/
theorem settle_alike (alike : g.shape.Alike r) (spreads : s.SpreadsOver r) :
    (g.settle s).shape.Alike s := by
  rw [settle_shape]
  exact Shape.settle_alike alike spreads

/-- A settled gradient pairs with a tangent of the operand as the gradient does with the tangent
spread over the result. -/
theorem settle_pair (g : Tensor α) (s : Shape) (σ : Tangent α) :
    (g.settle s).pair σ = g.pair (σ.over s) := by
  by_cases single : s.size = 1
  · have everywhere : g.pair (σ.over s) = g.sum * σ 0 := by
      rw [sum_eq, sum_mul]
      apply sum_congr rfl
      intro k _
      rw [Tangent.over, Shape.place_of_single single]
    rw [everywhere]
    unfold settle
    by_cases one : g.shape.size = 1
    · rw [if_neg (fun h => h.2 one), pair, sum_eq, one]
      simp
    · rw [if_pos ⟨single, one⟩, pair]
      change ∑ k ∈ range s.size, (fill s g.sum).coord k * σ k = g.sum * σ 0
      rw [single, sum_range_one, coord_fill (single ▸ Nat.zero_lt_one)]
  · unfold settle
    rw [if_neg (fun h => single h.1)]
    apply pair_congr
    intro k _
    rw [Tangent.over, Shape.place_of_many single]

/-- A gradient like its node pairs with a tangent as it does settled. -/
theorem settle_pair_of_alike (alike : g.shape.Alike s) (σ : Tangent α) :
    (g.settle s).pair σ = g.pair σ := by
  rw [settle_pair]
  apply pair_congr
  intro k hk
  rw [Tangent.over, Shape.place_of_lt (alike.size_eq ▸ hk)]

/-! ### Accumulated gradients -/

theorem update_pair {operator : Operator} {f : α → α → α} {old c : Tensor α}
    (updated : update operator f old g = .ok c) (oldAlike : old.shape.Alike s)
    (alike : g.shape.Alike s) :
    c.shape.Alike s ∧ ∀ k < c.shape.size, c.coord k = f (old.coord k) (g.coord k) := by
  obtain ⟨-, shape, numbers⟩ := update_ok updated
  rw [shape]
  refine ⟨oldAlike, fun k hk => ?_⟩
  rw [numbers k hk, spread_of_lt]
  rw [alike.size_eq, ← oldAlike.size_eq]
  exact hk

/-- A gradient combined with a contribution pairs as the two together. -/
theorem combineGradient_pair {sign : Sign} {old : Option (Tensor α)} {γ : Tensor α}
    (combined : Node.combineGradient sign old g = .ok γ) (oldAlike : ∀ o ∈ old, o.shape.Alike s)
    (alike : g.shape.Alike s) (σ : Tangent α) :
    γ.pair σ = (old.map (·.pair σ)).getD 0 + sign.apply (g.pair σ) := by
  have size {o : Tensor α} (ho : o.shape.Alike s) : g.shape.size = o.shape.size := by
    rw [alike.size_eq, ho.size_eq]
  cases old with
  | none =>
      cases sign with
      | plus =>
          cases combined
          exact (zero_add _).symm
      | minus =>
          cases combined
          rw [pair_neg]
          exact (zero_add _).symm
  | some o =>
      have ho := oldAlike o rfl
      cases sign with
      | plus =>
          obtain ⟨like, numbers⟩ := update_pair combined ho alike
          change γ.pair σ = o.pair σ + g.pair σ
          unfold pair
          rw [size ho, like.size_eq, ← ho.size_eq, ← sum_add_distrib]
          apply sum_congr rfl
          intro k hk
          rw [numbers k (by rw [like.size_eq, ← ho.size_eq]; exact mem_range.mp hk), add_mul]
      | minus =>
          obtain ⟨like, numbers⟩ := update_pair combined ho alike
          change γ.pair σ = o.pair σ + -g.pair σ
          unfold pair
          rw [size ho, like.size_eq, ← ho.size_eq, ← sub_eq_add_neg, ← sum_sub_distrib]
          apply sum_congr rfl
          intro k hk
          rw [numbers k (by rw [like.size_eq, ← ho.size_eq]; exact mem_range.mp hk), sub_mul]

end Tensor

end GradientReplay
