import GradientReplay.Proofs.Procedure.Backward
import GradientReplay.Proofs.Tensor.Matrix
import GradientReplay.Proofs.Tensor.Pairing
import Mathlib.Algebra.BigOperators.Group.Finset.Sigma

/-!
The rule of each operation against its derivative.

Arithmetic is exact here: the numbers are a field. A term pushes tangents of its arguments to a
tangent of its result by the derivative rule of the operation (`Term.tangent`). The rule that
spreads a gradient over the arguments is the adjoint of that: the contributions, as the nodes take
them, pair with the tangents of the arguments as the gradient does with the tangent of the result
(`Term.contributions_exact`).
-/

namespace GradientReplay

open Finset

variable {α : Type} [Field α]

/-! ### Tangents of results -/

/-- The tangent of a result at the values and tangents of the arguments. The second argument of a
function is a target or a parameter, and passes no tangent on. -/
def Term.tangent : Term α (Tensor α × Tangent α) → Tangent α
  | unary f (x, dx) => fun k => f.derivative (x.coord k) * dx k
  | binary f (x, dx) (c, _) => fun k =>
      f.derivative (x.spread k) (c.spread k) * dx.over x.shape k
  | arithmetic .add (x, dx) (y, dy) => fun k => dx.over x.shape k + dy.over y.shape k
  | arithmetic .subtract (x, dx) (y, dy) => fun k => dx.over x.shape k - dy.over y.shape k
  | arithmetic .multiply (x, dx) (y, dy) => fun k =>
      dx.over x.shape k * y.spread k + x.spread k * dy.over y.shape k
  | arithmetic .divide (x, dx) (y, dy) => fun k =>
      dx.over x.shape k / y.spread k -
        x.spread k * dy.over y.shape k / (y.spread k * y.spread k)
  | arithmetic .dot (x, dx) (y, dy) => fun p =>
      let inner := y.shape.headD 0
      let columns := y.shape.tail.headD 0
      ∑ l ∈ range inner,
        (dx (p / columns * inner + l) * y.coord (l * columns + p % columns) +
          x.coord (p / columns * inner + l) * dy (l * columns + p % columns))

/-! ### Matrices -/

namespace Tensor

theorem coord_matMul_sum {a b c : Tensor α} (h : a.matMul b = .ok c) {m k n : Nat}
    (ha : a.shape = [m, k]) (hb : b.shape = [k, n]) :
    c.shape = [m, n] ∧
      ∀ i < m, ∀ j < n, c.coord (i * n + j) =
        ∑ l ∈ range k, a.coord (i * k + l) * b.coord (l * n + j) := by
  obtain ⟨shape, numbers⟩ := coord_matMul h ha hb
  refine ⟨shape, fun i hi j hj => ?_⟩
  rw [numbers i hi j hj, innerProduct, foldl_range_eq_sum]

theorem pair_matrix {t : Tensor α} {m n : Nat} (shape : t.shape = [m, n]) (σ : Tangent α) :
    t.pair σ = ∑ i ∈ range m, ∑ j ∈ range n, t.coord (i * n + j) * σ (i * n + j) := by
  rw [pair, shape, Shape.size_pair, sum_range_mul]

/-- The two gradients of a matrix product pair with the tangents of the factors as the gradient of
the product does with its tangent. -/
theorem matMul_adjoint {a b g bt at' gx gy : Tensor α} {m k n : Nat} (ha : a.shape = [m, k])
    (hb : b.shape = [k, n]) (hg : g.shape = [m, n]) (hbt : b.transpose = .ok bt)
    (hgx : g.matMul bt = .ok gx) (hat : a.transpose = .ok at') (hgy : at'.matMul g = .ok gy)
    (dx dy : Tangent α) :
    gx.shape = a.shape ∧ gy.shape = b.shape ∧
      gx.pair dx + gy.pair dy =
        g.pair (Term.arithmetic .dot (a, dx) (b, dy)).tangent := by
  obtain ⟨btShape, btCoord⟩ := coord_transpose hbt hb
  obtain ⟨atShape, atCoord⟩ := coord_transpose hat ha
  obtain ⟨gxShape, gxCoord⟩ := coord_matMul_sum hgx hg btShape
  obtain ⟨gyShape, gyCoord⟩ := coord_matMul_sum hgy atShape hg
  refine ⟨gxShape.trans ha.symm, gyShape.trans hb.symm, ?_⟩
  have first : gx.pair dx = ∑ i ∈ range m, ∑ j ∈ range n, ∑ l ∈ range k,
      g.coord (i * n + j) * (dx (i * k + l) * b.coord (l * n + j)) := by
    rw [pair_matrix gxShape]
    apply sum_congr rfl
    intro i hi
    rw [sum_comm]
    apply sum_congr rfl
    intro l hl
    rw [gxCoord i (mem_range.mp hi) l (mem_range.mp hl), sum_mul]
    apply sum_congr rfl
    intro j hj
    rw [btCoord l (mem_range.mp hl) j (mem_range.mp hj)]
    ring
  have second : gy.pair dy = ∑ i ∈ range m, ∑ j ∈ range n, ∑ l ∈ range k,
      g.coord (i * n + j) * (a.coord (i * k + l) * dy (l * n + j)) := by
    have inner (l : Nat) (hl : l ∈ range k) (j : Nat) (hj : j ∈ range n) :
        gy.coord (l * n + j) * dy (l * n + j) = ∑ i ∈ range m,
          g.coord (i * n + j) * (a.coord (i * k + l) * dy (l * n + j)) := by
      rw [gyCoord l (mem_range.mp hl) j (mem_range.mp hj), sum_mul]
      apply sum_congr rfl
      intro i hi
      rw [atCoord i (mem_range.mp hi) l (mem_range.mp hl)]
      ring
    calc gy.pair dy
        = ∑ l ∈ range k, ∑ j ∈ range n, ∑ i ∈ range m,
            g.coord (i * n + j) * (a.coord (i * k + l) * dy (l * n + j)) := by
          rw [pair_matrix gyShape]
          exact sum_congr rfl fun l hl => sum_congr rfl fun j hj => inner l hl j hj
      _ = ∑ l ∈ range k, ∑ i ∈ range m, ∑ j ∈ range n,
            g.coord (i * n + j) * (a.coord (i * k + l) * dy (l * n + j)) :=
          sum_congr rfl fun l _ => sum_comm
      _ = ∑ i ∈ range m, ∑ l ∈ range k, ∑ j ∈ range n,
            g.coord (i * n + j) * (a.coord (i * k + l) * dy (l * n + j)) := sum_comm
      _ = _ := sum_congr rfl fun i _ => sum_comm
  rw [first, second, pair_matrix hg, ← sum_add_distrib]
  apply sum_congr rfl
  intro i _
  rw [← sum_add_distrib]
  apply sum_congr rfl
  intro j hj
  rw [← sum_add_distrib]
  simp only [Term.tangent, hb, List.headD_cons, List.tail_cons, offset_div (mem_range.mp hj),
    offset_mod (mem_range.mp hj), mul_sum, mul_add]

/-- A contribution whose numbers are those of the gradient of the result times factors settles to
the shape of its operand, and pairs with a tangent of it as the gradient does with the tangent times
the factors. -/
theorem settle_scaled {c g : Tensor α} {s r : Shape} {factor : Nat → α} (alike : c.shape.Alike r)
    (size : c.shape.size = g.shape.size)
    (scaled : ∀ k < g.shape.size, c.coord k = g.coord k * factor k) (spreads : s.SpreadsOver r)
    (σ : Tangent α) :
    (c.settle s).shape.Alike s ∧
      (c.settle s).pair σ = g.pair fun k => factor k * σ.over s k := by
  refine ⟨settle_alike alike spreads, ?_⟩
  rw [settle_pair, pair_of_scaled size scaled]

theorem settle_of_shape {g : Tensor α} {s : Shape} (shape : g.shape = s) : g.settle s = g := by
  unfold settle
  rw [if_neg]
  rintro ⟨single, many⟩
  exact many (shape ▸ single)

end Tensor

/-! ### The rules -/

/-- The inner products of contributions, as the nodes take them, with the tangents of the nodes. -/
def contributed (shape : NodeId → Shape) (τ : NodeId → Tangent α) (cs : List (Contribution α)) :
    α :=
  (cs.map fun c => c.sign.apply ((c.gradient.settle (shape c.node)).pair (τ c.node))).sum

@[simp] theorem contributed_nil (shape : NodeId → Shape) (τ : NodeId → Tangent α) :
    contributed shape τ [] = 0 := rfl

@[simp] theorem contributed_cons (shape : NodeId → Shape) (τ : NodeId → Tangent α)
    (c : Contribution α) (cs : List (Contribution α)) :
    contributed shape τ (c :: cs) =
      c.sign.apply ((c.gradient.settle (shape c.node)).pair (τ c.node)) +
        contributed shape τ cs := rfl

theorem contributed_congr {shape shape' : NodeId → Shape} {τ : NodeId → Tangent α}
    {cs : List (Contribution α)} (same : ∀ c ∈ cs, shape c.node = shape' c.node) :
    contributed shape τ cs = contributed shape' τ cs := by
  unfold contributed
  congr 1
  apply List.map_congr_left
  intro c hc
  rw [same c hc]

/-- A contribution is like its node. -/
def Contribution.Settles (shape : NodeId → Shape) (c : Contribution α) : Prop :=
  (c.gradient.settle (shape c.node)).shape.Alike (shape c.node)

theorem Contribution.settles_of_shape {shape : NodeId → Shape} {c : Contribution α}
    (h : c.gradient.shape = shape c.node) : c.Settles shape := by
  unfold Settles
  rw [Tensor.settle_of_shape h]
  exact .inl h

namespace Term

variable [BEq α] {read : NodeId → Except ReplayError (Tensor α)} {value : NodeId → Tensor α}
  {x y : NodeId} {v g : Tensor α} {cs : List (Contribution α)}

/-- What is to be shown of the rule of a term: its contributions settle to the shapes of the
arguments, and pair with their tangents as the gradient does with the tangent of the result. -/
def Exact (value : NodeId → Tensor α) (g : Tensor α) (t : Term α NodeId)
    (cs : List (Contribution α)) : Prop :=
  (∀ c ∈ cs, c.Settles fun n => (value n).shape) ∧
    ∀ τ, contributed (fun n => (value n).shape) τ cs =
      g.pair (t.map fun n => (value n, τ n)).tangent

omit [BEq α] in
/-- A rule with one contribution. -/
theorem exact_of_one {t : Term α NodeId} {gx : Tensor α} {factor : Nat → α} {r : Shape}
    (alike : gx.shape.Alike r) (size : gx.shape.size = g.shape.size)
    (scaled : ∀ k < g.shape.size, gx.coord k = g.coord k * factor k)
    (spreads : (value x).shape.SpreadsOver r)
    (rule : ∀ τ : NodeId → Tangent α, ∀ k < g.shape.size,
      (t.map fun n => (value n, τ n)).tangent k = factor k * (τ x).over (value x).shape k) :
    Exact value g t [⟨x, .plus, gx⟩] := by
  constructor
  · intro c hc
    cases List.mem_singleton.mp hc
    exact (Tensor.settle_scaled alike size scaled spreads fun _ => 0).1
  · intro τ
    have paired := (Tensor.settle_scaled alike size scaled spreads (τ x)).2
    simp only [contributed_cons, contributed_nil, add_zero, Sign.apply]
    rw [paired]
    apply Tensor.pair_congr
    intro k hk
    rw [rule τ k hk]

omit [BEq α] in
/-- A rule with two contributions, the second one added or subtracted. -/
theorem exact_of_two {t : Term α NodeId} {sign : Sign} {gx gy : Tensor α} {fx fy : Nat → α}
    {r : Shape} (alikeX : gx.shape.Alike r) (sizeX : gx.shape.size = g.shape.size)
    (scaledX : ∀ k < g.shape.size, gx.coord k = g.coord k * fx k)
    (alikeY : gy.shape.Alike r) (sizeY : gy.shape.size = g.shape.size)
    (scaledY : ∀ k < g.shape.size, gy.coord k = g.coord k * fy k)
    (spreadsX : (value x).shape.SpreadsOver r) (spreadsY : (value y).shape.SpreadsOver r)
    (rule : ∀ τ : NodeId → Tangent α, ∀ k < g.shape.size,
      (t.map fun n => (value n, τ n)).tangent k =
        fx k * (τ x).over (value x).shape k + sign.apply (fy k * (τ y).over (value y).shape k)) :
    Exact value g t [⟨x, .plus, gx⟩, ⟨y, sign, gy⟩] := by
  constructor
  · intro c hc
    rcases List.mem_cons.mp hc with rfl | hc
    · exact (Tensor.settle_scaled alikeX sizeX scaledX spreadsX fun _ => 0).1
    · cases List.mem_singleton.mp hc
      exact (Tensor.settle_scaled alikeY sizeY scaledY spreadsY fun _ => 0).1
  · intro τ
    have first := (Tensor.settle_scaled alikeX sizeX scaledX spreadsX (τ x)).2
    have second := (Tensor.settle_scaled alikeY sizeY scaledY spreadsY (τ y)).2
    simp only [contributed_cons, contributed_nil, add_zero]
    rw [first, second]
    cases sign with
    | plus =>
        simp only [Sign.apply] at rule ⊢
        rw [← Tensor.pair_add]
        apply Tensor.pair_congr
        intro k hk
        rw [rule τ k hk]
    | minus =>
        simp only [Sign.apply] at rule ⊢
        rw [← sub_eq_add_neg, ← Tensor.pair_sub]
        apply Tensor.pair_congr
        intro k hk
        rw [rule τ k hk, sub_eq_add_neg]

theorem unary_exact {f : UnaryFunction α} (hx : read x = .ok (value x))
    (alike : g.shape.Alike (value x).shape) (made : (unary f x).contributions read g = .ok cs) :
    Exact value g (unary f x) cs := by
  obtain ⟨a, ha, made⟩ := bind_ok_iff.mp made
  cases hx.symm.trans ha
  obtain ⟨gx, hgx, made⟩ := bind_ok_iff.mp made
  cases made
  obtain ⟨like, size, numbers⟩ := Tensor.zipWith_right (ofTensor_ok.mp hgx) alike (.inr rfl)
  have inside {k : Nat} (hk : k < g.shape.size) : k < (value x).shape.size := alike.size_eq ▸ hk
  have slope {k : Nat} (hk : k < g.shape.size) :
      (f.slope (value x)).spread k = f.derivative ((value x).coord k) :=
    (Tensor.spread_of_lt (t := f.slope (value x)) (inside hk)).trans
      (Tensor.coord_map f.derivative (value x) (inside hk))
  have scaled : ∀ k < g.shape.size,
      gx.coord k = g.coord k * f.derivative ((value x).coord k) := by
    intro k hk
    rw [numbers k hk, slope hk, mul_comm]
  apply exact_of_one like size scaled (.inr rfl)
  intro τ k hk
  simp only [tangent, map, Tangent.over, Shape.place_of_lt (inside hk)]

theorem binary_exact {f : BinaryFunction α} (hx : read x = .ok (value x))
    (hy : read y = .ok (value y)) (computed : f.apply (value x) (value y) = .ok v)
    (alike : g.shape.Alike v.shape) (made : (binary f x y).contributions read g = .ok cs) :
    Exact value g (binary f x y) cs := by
  obtain ⟨a, ha, made⟩ := bind_ok_iff.mp made
  cases hx.symm.trans ha
  obtain ⟨b, hb, made⟩ := bind_ok_iff.mp made
  cases hy.symm.trans hb
  obtain ⟨slope, hslope, made⟩ := bind_ok_iff.mp made
  obtain ⟨gx, hgx, made⟩ := bind_ok_iff.mp made
  cases made
  obtain ⟨spreads, -, common, -⟩ := Tensor.zipWith_ok computed
  obtain ⟨-, -, common', slopes⟩ := Tensor.zipWith_ok (ofTensor_ok.mp hslope)
  have same : slope.shape = v.shape := common'.trans common.symm
  obtain ⟨like, size, numbers⟩ :=
    Tensor.zipWith_right (ofTensor_ok.mp hgx) alike (.inr same)
  have scaled : ∀ k < g.shape.size,
      gx.coord k = g.coord k * f.derivative ((value x).spread k) ((value y).spread k) := by
    intro k hk
    have inside : k < slope.shape.size := by
      rw [same, ← alike.size_eq]
      exact hk
    rw [numbers k hk, Tensor.spread_of_lt inside, slopes k inside, mul_comm]
  apply exact_of_one like size scaled spreads
  intro τ k _
  rfl

omit [BEq α] in
/-- The gradient itself is a contribution with factor one. -/
theorem scaled_one (g : Tensor α) : ∀ k < g.shape.size, g.coord k = g.coord k * 1 := by
  intro k _
  exact (mul_one _).symm

theorem add_exact (computed : (value x).add (value y) = .ok v) (alike : g.shape.Alike v.shape)
    (made : (arithmetic .add x y).contributions read g = .ok cs) :
    Exact value g (arithmetic .add x y) cs := by
  cases made
  obtain ⟨spreadsX, spreadsY, -, -⟩ := Tensor.zipWith_ok computed
  apply exact_of_two alike rfl (scaled_one g) alike rfl (scaled_one g) spreadsX spreadsY
  intro τ k _
  simp only [tangent, map, Sign.apply, one_mul]

theorem subtract_exact (computed : (value x).sub (value y) = .ok v)
    (alike : g.shape.Alike v.shape)
    (made : (arithmetic .subtract x y).contributions read g = .ok cs) :
    Exact value g (arithmetic .subtract x y) cs := by
  cases made
  obtain ⟨spreadsX, spreadsY, -, -⟩ := Tensor.zipWith_ok computed
  apply exact_of_two alike rfl (scaled_one g) alike rfl (scaled_one g) spreadsX spreadsY
  intro τ k _
  simp only [tangent, map, Sign.apply, one_mul, sub_eq_add_neg]

theorem multiply_exact (hx : read x = .ok (value x)) (hy : read y = .ok (value y))
    (computed : (value x).mul (value y) = .ok v) (alike : g.shape.Alike v.shape)
    (made : (arithmetic .multiply x y).contributions read g = .ok cs) :
    Exact value g (arithmetic .multiply x y) cs := by
  obtain ⟨b, hb, made⟩ := bind_ok_iff.mp made
  cases hy.symm.trans hb
  obtain ⟨gx, hgx, made⟩ := bind_ok_iff.mp made
  obtain ⟨a, ha, made⟩ := bind_ok_iff.mp made
  cases hx.symm.trans ha
  obtain ⟨gy, hgy, made⟩ := bind_ok_iff.mp made
  cases made
  obtain ⟨spreadsX, spreadsY, -, -⟩ := Tensor.zipWith_ok computed
  obtain ⟨likeX, sizeX, scaledX⟩ := Tensor.zipWith_left (ofTensor_ok.mp hgx) alike spreadsY
  obtain ⟨likeY, sizeY, numbers⟩ := Tensor.zipWith_right (ofTensor_ok.mp hgy) alike spreadsX
  have scaledY : ∀ k < g.shape.size, gy.coord k = g.coord k * (value x).spread k := by
    intro k hk
    rw [numbers k hk, mul_comm]
  apply exact_of_two likeX sizeX scaledX likeY sizeY scaledY spreadsX spreadsY
  intro τ k _
  simp only [tangent, map, Sign.apply]
  ring

omit [BEq α] in
/-- The square of a divisor at an offset of the result. -/
theorem spread_square {b bb : Tensor α} {r : Shape} (h : b.mul b = .ok bb)
    (spreads : b.shape.SpreadsOver r) {k : Nat} (hk : k < r.size) :
    bb.shape = b.shape ∧ bb.spread k = b.spread k * b.spread k := by
  obtain ⟨-, -, common, numbers⟩ := Tensor.zipWith_ok h
  have shape : bb.shape = b.shape := common.trans (if_pos rfl)
  have inside : b.shape.place k < b.shape.size := spreads.place_lt hk
  have again : b.spread (b.shape.place k) = b.spread k := Tensor.spread_of_lt inside
  refine ⟨shape, ?_⟩
  rw [Tensor.spread, shape, numbers _ (shape ▸ inside), again]

theorem divide_exact (hx : read x = .ok (value x)) (hy : read y = .ok (value y))
    (computed : (value x).div (value y) = .ok v) (alike : g.shape.Alike v.shape)
    (made : (arithmetic .divide x y).contributions read g = .ok cs) :
    Exact value g (arithmetic .divide x y) cs := by
  obtain ⟨a, ha, made⟩ := bind_ok_iff.mp made
  cases hx.symm.trans ha
  obtain ⟨b, hb, made⟩ := bind_ok_iff.mp made
  cases hy.symm.trans hb
  obtain ⟨gx, hgx, made⟩ := bind_ok_iff.mp made
  obtain ⟨ga, hga, made⟩ := bind_ok_iff.mp made
  obtain ⟨bb, hbb, made⟩ := bind_ok_iff.mp made
  obtain ⟨gy, hgy, made⟩ := bind_ok_iff.mp made
  cases made
  obtain ⟨spreadsX, spreadsY, -, -⟩ := Tensor.zipWith_ok (Tensor.div_ok computed)
  obtain ⟨likeX, sizeX, quotients⟩ :=
    Tensor.zipWith_left (Tensor.div_ok (ofTensor_ok.mp hgx)) alike spreadsY
  obtain ⟨likeA, sizeA, products⟩ := Tensor.zipWith_left (ofTensor_ok.mp hga) alike spreadsX
  have square {k : Nat} (hk : k < g.shape.size) :=
    spread_square (ofTensor_ok.mp hbb) spreadsY (alike.size_eq ▸ hk)
  have spreadsB : bb.shape.SpreadsOver v.shape := by
    obtain ⟨-, -, common, -⟩ := Tensor.zipWith_ok (ofTensor_ok.mp hbb)
    rw [common.trans (if_pos rfl)]
    exact spreadsY
  obtain ⟨likeY, sizeY, ratios⟩ :=
    Tensor.zipWith_left (Tensor.div_ok (ofTensor_ok.mp hgy)) likeA spreadsB
  have scaledX : ∀ k < g.shape.size, gx.coord k = g.coord k * (1 / (value y).spread k) := by
    intro k hk
    rw [quotients k hk, mul_one_div]
  have scaledY : ∀ k < g.shape.size, gy.coord k =
      g.coord k * ((value x).spread k / ((value y).spread k * (value y).spread k)) := by
    intro k hk
    rw [ratios k (sizeA ▸ hk), products k hk, (square hk).2, mul_div_assoc]
  apply exact_of_two likeX sizeX scaledX likeY (sizeY.trans sizeA) scaledY spreadsX spreadsY
  intro τ k _
  simp only [tangent, map, Sign.apply]
  ring

theorem dot_exact (hx : read x = .ok (value x)) (hy : read y = .ok (value y))
    (computed : (value x).matMul (value y) = .ok v) (alike : g.shape.Alike v.shape)
    (made : (arithmetic .dot x y).contributions read g = .ok cs) :
    Exact value g (arithmetic .dot x y) cs := by
  obtain ⟨a, ha, made⟩ := bind_ok_iff.mp made
  cases hx.symm.trans ha
  obtain ⟨b, hb, made⟩ := bind_ok_iff.mp made
  cases hy.symm.trans hb
  obtain ⟨bt, hbt, made⟩ := bind_ok_iff.mp made
  obtain ⟨gx, hgx, made⟩ := bind_ok_iff.mp made
  obtain ⟨at', hat, made⟩ := bind_ok_iff.mp made
  obtain ⟨gy, hgy, made⟩ := bind_ok_iff.mp made
  cases made
  rw [ofTensor_ok] at hbt hgx hat hgy
  obtain ⟨m, k, n, shapeX, shapeY, shapeV⟩ := Tensor.matMul_shape computed
  have shapeG : g.shape = [m, n] := by
    obtain ⟨m', k', n', left, -, -⟩ := Tensor.matMul_shape hgx
    rw [shapeV, left] at alike
    rw [left, alike.eq_matrix]
  have adjoint := Tensor.matMul_adjoint shapeX shapeY shapeG hbt hgx hat hgy
  obtain ⟨likeX, likeY, -⟩ := adjoint (fun _ => 0) fun _ => 0
  constructor
  · intro c hc
    rcases List.mem_cons.mp hc with rfl | hc
    · exact Contribution.settles_of_shape likeX
    · cases List.mem_singleton.mp hc
      exact Contribution.settles_of_shape likeY
  · intro τ
    simp only [contributed_cons, contributed_nil, add_zero, Sign.apply]
    rw [Tensor.settle_of_shape likeX, Tensor.settle_of_shape likeY]
    exact (adjoint (τ x) (τ y)).2.2

/-- The rule of every operation is the adjoint of its derivative. -/
theorem contributions_exact {t : Term α NodeId}
    (readable : ∀ a ∈ t.arguments, read a = .ok (value a)) (computed : (t.map value).eval = .ok v)
    (alike : g.shape.Alike v.shape) (made : t.contributions read g = .ok cs) :
    Exact value g t cs := by
  have hx := readable t.first t.first_mem_arguments
  cases t with
  | unary f x =>
      cases computed
      exact unary_exact hx alike made
  | binary f x c =>
      have hc := readable c (by simp [arguments, second?])
      exact binary_exact hx hc computed alike made
  | arithmetic operation x y =>
      have hy := readable y (by simp [arguments, second?])
      cases operation with
      | add => exact add_exact computed alike made
      | subtract => exact subtract_exact computed alike made
      | dot => exact dot_exact hx hy computed alike made
      | multiply => exact multiply_exact hx hy computed alike made
      | divide => exact divide_exact hx hy computed alike made

end Term

end GradientReplay
