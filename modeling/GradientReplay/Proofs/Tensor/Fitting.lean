import GradientReplay.Graph.Node
import GradientReplay.Proofs.Tensor.Coordinate

/-!
The shapes of gradients.

Operands that spread over one shape go together (`zipWith_of_spreads`), so a gradient that is like a
result can be spread over the operands and added to gradients that are like theirs
(`combineGradient_of_alike`). Whether it comes to have the very shape of an operand is another matter:
a node of a single element takes any other single element as it is. The first operand always has the
shape of the gradient then; the second one has not when both have a single element and their shapes
differ (`settle_second`).
-/

namespace GradientReplay

/-! ### Shapes -/

namespace Shape

variable {s r u : Shape}

theorem Alike.symm (h : s.Alike r) : r.Alike s := by
  rcases h with rfl | ⟨hs, hr⟩
  · exact .refl s
  · exact .inr ⟨hr, hs⟩

theorem Alike.of_either (alike : u.Alike r) (either : s = u ∨ s = r) : s.Alike r := by
  rcases either with rfl | rfl
  · exact alike
  · exact .refl s

theorem SpreadsOver.single (h : s.SpreadsOver r) (single : r.size = 1) : s.size = 1 :=
  (h.alike single).size_eq.trans single

/-- Matrices of a single element have one shape. -/
theorem Alike.eq_matrix {m n k l : Nat} (alike : Alike [m, n] [k, l]) :
    ([m, n] : Shape) = [k, l] := by
  rcases alike with same | ⟨left, right⟩
  · exact same
  · rw [size_pair] at left right
    rw [Nat.eq_one_of_mul_eq_one_right left, Nat.eq_one_of_mul_eq_one_left left,
      Nat.eq_one_of_mul_eq_one_right right, Nat.eq_one_of_mul_eq_one_left right]

/-- Next to a single element the first operand gives the shape of the result. -/
theorem common_of_single (single : r.size = 1) : s.common r = s := by
  unfold common
  rw [if_pos single, ite_self]

/-- A result of a single element has the shape of the first operand. -/
theorem eq_common_of_single (spreads : r.SpreadsOver (s.common r))
    (single : (s.common r).size = 1) : s = s.common r :=
  (common_of_single (spreads.single single)).symm

/-- An operand of several elements, or of none, gives the shape of the result. -/
theorem common_of_many (many : r.size ≠ 1) : s.common r = r := by
  unfold common
  rw [if_neg many]
  split
  · assumption
  · rfl

/-- Shapes of a single element that differ. Operands of such shapes go together all the same. -/
def Mixed (s r : Shape) : Prop := s ≠ r ∧ s.size = 1 ∧ r.size = 1

/-- The shape in which a node of shape `s` takes a gradient of shape `u`: it is summed, if the shape
has a single place and the gradient has not. -/
def settle (s u : Shape) : Shape := if s.size = 1 ∧ u.size ≠ 1 then s else u

@[simp] theorem settle_self (s : Shape) : s.settle s = s := ite_self s

/-- A gradient like the result settles to one like the operand. -/
theorem settle_alike (alike : u.Alike r) (spreads : s.SpreadsOver r) : (s.settle u).Alike s := by
  unfold settle
  split
  · exact .refl s
  · rename_i keep
    rcases spreads with single | rfl
    · have one : u.size = 1 := by
        by_contra many
        exact keep ⟨single, many⟩
      exact .inr ⟨one, single⟩
    · exact alike

/-- A gradient of the shape of the result settles to the shape of the first operand. -/
theorem settle_first (spreads : s.SpreadsOver (s.common r)) : s.settle (s.common r) = s := by
  by_cases single : r.size = 1
  · rw [common_of_single single, settle_self]
  · rw [common_of_many single] at spreads ⊢
    rcases spreads with one | rfl
    · exact if_pos ⟨one, single⟩
    · exact settle_self s

/-- A gradient of the shape of the result settles to the shape of the second operand, unless both
operands have a single element and their shapes differ. -/
theorem settle_second : r.settle (s.common r) = r ↔ ¬ s.Mixed r := by
  by_cases single : r.size = 1
  · rw [common_of_single single]
    unfold settle Mixed
    by_cases one : s.size = 1
    · rw [if_neg fun h => h.2 one]
      constructor
      · intro same h
        exact h.1 same
      · intro unmixed
        by_contra differ
        exact unmixed ⟨differ, one, single⟩
    · rw [if_pos ⟨single, one⟩]
      exact iff_of_true rfl fun h => one h.2.1
  · rw [common_of_many single, settle_self]
    exact iff_of_true rfl fun h => single h.2.2

end Shape

/-! ### Elementwise operations -/

namespace Tensor

variable {α : Type} [Zero α] {operator : Operator} {f : α → α → α} {a b c g : Tensor α} {r : Shape}

/-- Operands that spread over one shape go together. -/
theorem zipWith_of_spreads (ha : a.shape.SpreadsOver r) (hb : b.shape.SpreadsOver r) :
    ∃ c, zipWith operator f a b = .ok c := by
  unfold zipWith
  split
  · exact ⟨_, rfl⟩
  · rename_i differ
    rcases hb with single | hb
    · rw [number?_of_single single]
      exact ⟨_, rfl⟩
    · rcases ha with single | ha
      · rw [number?_of_single single]
        cases b.number? with
        | some y => exact ⟨_, rfl⟩
        | none => exact ⟨_, rfl⟩
      · exact absurd (ha.trans hb.symm) differ

theorem div_of_spreads [BEq α] [Div α] (ha : a.shape.SpreadsOver r) (hb : b.shape.SpreadsOver r) :
    (∃ c, a.div b = .ok c) ∨ a.div b = .error .zeroDivisor := by
  unfold div
  split
  · exact .inr rfl
  · exact .inl (zipWith_of_spreads ha hb)

theorem update_of_spreads (hb : b.shape.SpreadsOver a.shape) :
    ∃ c, update operator f a b = .ok c ∧ c.shape = a.shape := by
  unfold update
  split
  · exact ⟨_, rfl, rfl⟩
  · rename_i differ
    rcases hb with single | hb
    · rw [number?_of_single single]
      exact ⟨_, rfl, rfl⟩
    · exact absurd hb.symm differ

theorem update_error {e : TensorError} :
    update operator f a b = .error e ↔
      ¬ b.shape.SpreadsOver a.shape ∧ e = .shapesDiffer operator a.shape b.shape := by
  constructor
  · intro failed
    have apart : ¬ b.shape.SpreadsOver a.shape := by
      intro spreads
      have ok : ∃ c, update operator f a b = .ok c ∧ c.shape = a.shape := update_of_spreads spreads
      obtain ⟨c, ok, -⟩ := ok
      rw [ok] at failed
      cases failed
    obtain ⟨many, differ⟩ := not_or.mp apart
    rw [update, dif_neg (Ne.symm differ), number?_of_many many] at failed
    cases failed
    exact ⟨apart, rfl⟩
  · rintro ⟨apart, rfl⟩
    obtain ⟨many, differ⟩ := not_or.mp apart
    rw [update, dif_neg (Ne.symm differ), number?_of_many many]

/-- A gradient like a result keeps its shape as the left operand. -/
theorem zipWith_left_shape (h : zipWith operator f g b = .ok c) (alike : g.shape.Alike r)
    (spreads : b.shape.SpreadsOver r) : c.shape = g.shape := by
  by_cases single : r.size = 1
  · rw [(zipWith_ok h).2.2.1, Shape.common_of_single (spreads.single single)]
  · rw [(zipWith_alike h alike.spreadsOver spreads (.inl alike)).eq single, alike.eq single]

/-- With a gradient like a result as the right operand the outcome has the shape of the result. -/
theorem zipWith_right_shape (h : zipWith operator f a g = .ok c) (alike : g.shape.Alike r)
    (spreads : a.shape.SpreadsOver r) (first : r.size = 1 → a.shape = r) : c.shape = r := by
  by_cases single : r.size = 1
  · rw [(zipWith_ok h).2.2.1, Shape.common_of_single (alike.size_eq.trans single), first single]
  · exact (zipWith_alike h spreads alike.spreadsOver (.inr alike)).eq single

/-! ### Matrices -/

omit [Zero α] in
theorem dimensions_of_matrix {t : Tensor α} {m n : Nat} (h : t.shape = [m, n])
    (operator : Operator) : t.dimensions operator = .ok (m, n) := by
  unfold dimensions
  rw [h]

omit [Zero α] in
theorem dimensions_of_not_matrix {t : Tensor α} (h : ∀ m n, t.shape ≠ [m, n])
    (operator : Operator) : t.dimensions operator = .error (.notMatrix operator t.shape) := by
  unfold dimensions
  split
  · rename_i m n shape
    exact absurd shape (h m n)
  · rfl

theorem transpose_of_matrix {t : Tensor α} {m n : Nat} (h : t.shape = [m, n]) :
    ∃ c, t.transpose = .ok c ∧ c.shape = [n, m] := by
  unfold transpose
  rw [dimensions_of_matrix h]
  exact ⟨_, rfl, rfl⟩

variable [Add α] [Mul α]

theorem matMul_of_matrices {m k n : Nat} (ha : a.shape = [m, k]) (hb : b.shape = [k, n]) :
    ∃ c, a.matMul b = .ok c ∧ c.shape = [m, n] := by
  unfold matMul
  rw [dimensions_of_matrix ha, dimensions_of_matrix hb]
  simp only [bind, Except.bind, ne_eq, not_true_eq_false, if_false]
  exact ⟨_, rfl, rfl⟩

theorem matMul_of_not_matrix (ha : ∀ m n, a.shape ≠ [m, n]) (b : Tensor α) :
    a.matMul b = .error (.notMatrix .matMul a.shape) := by
  unfold matMul
  rw [dimensions_of_not_matrix ha]
  rfl

end Tensor

/-! ### Gradients of nodes -/

namespace Node

variable {α : Type} [Zero α] [Add α]

omit [Zero α] [Add α] in
/-- When a node sums a contribution. -/
theorem sums_iff (n : Node α) (g : Tensor α) :
    (n.reference.isSingle && !g.isSingle) = true ↔ n.shape.size = 1 ∧ g.shape.size ≠ 1 := by
  rw [Bool.and_eq_true, Bool.not_eq_true', n.reference.isSingle_iff, Bool.eq_false_iff, Ne,
    g.isSingle_iff]
  rfl

theorem fit_shape (n : Node α) (g : Tensor α) : (n.fit g).shape = n.shape.settle g.shape := by
  unfold fit Shape.settle
  simp only [sums_iff]
  split
  · rfl
  · rfl

variable [Sub α] [Neg α] {sign : Sign} {old : Option (Tensor α)} {g γ : Tensor α} {s : Shape}

/-- A contribution like its node can be combined with a gradient like it. -/
theorem combineGradient_of_alike (oldAlike : ∀ o ∈ old, o.shape.Alike s) (alike : g.shape.Alike s) :
    ∃ γ, combineGradient sign old g = .ok γ := by
  cases old with
  | none => cases sign <;> exact ⟨_, rfl⟩
  | some o =>
      have spreads : g.shape.SpreadsOver o.shape := (alike.trans (oldAlike o rfl).symm).spreadsOver
      cases sign with
      | plus =>
          obtain ⟨γ, made, -⟩ := Tensor.update_of_spreads spreads
          exact ⟨γ, made⟩
      | minus =>
          obtain ⟨γ, made, -⟩ := Tensor.update_of_spreads spreads
          exact ⟨γ, made⟩

/-- The first contribution decides the shape of a gradient. -/
theorem combineGradient_shape (h : combineGradient sign old g = .ok γ) :
    γ.shape = (old.map (·.shape)).getD g.shape := by
  cases old with
  | none =>
      cases sign with
      | plus =>
          cases h
          rfl
      | minus =>
          cases h
          rfl
  | some o =>
      cases sign with
      | plus => exact (Tensor.update_ok h).2.1
      | minus => exact (Tensor.update_ok h).2.1

end Node

end GradientReplay
