import GradientReplay.Proofs.Tensor.Fitting

/-!
The elementwise operations as one family.

Each of them works with a function of two numbers (`Elementwise.number`), and a division first looks
for a zero in the divisor. Apart from that, two tensors go together if their shapes are equal or one
of them has a single element, which is then used everywhere (`Tensor.zipWith_isOk_iff`). With the
operands and the arguments of the function swapped, the result has the same numbers in the same
order, and only two single elements of different rank give it another shape
(`Tensor.zipWith_swapped`).
-/

namespace GradientReplay

/-! ### Shapes of a single element -/

namespace Shape

variable {s r u : Shape}

/-- A shape of a single element has all dimensions one, so its rank decides it. -/
theorem eq_replicate_of_single (single : s.size = 1) : s = List.replicate s.length 1 := by
  induction s with
  | nil => rfl
  | cons d ds ih =>
      have product : d * size ds = 1 := single
      rw [List.length_cons, List.replicate_succ, ← ih (Nat.eq_one_of_mul_eq_one_left product),
        Nat.eq_one_of_mul_eq_one_right product]

theorem mixed_iff : s.Mixed r ↔ s.size = 1 ∧ r.size = 1 ∧ s.length ≠ r.length := by
  constructor
  · rintro ⟨differ, hs, hr⟩
    refine ⟨hs, hr, fun rank => differ ?_⟩
    rw [eq_replicate_of_single hs, eq_replicate_of_single hr, rank]
  · rintro ⟨hs, hr, rank⟩
    exact ⟨fun same => rank (congrArg List.length same), hs, hr⟩

/-- The common shape of two operands that go together is the same in both orders, unless both have a
single element and their shapes differ. -/
theorem common_comm_iff (together : s = r ∨ s.size = 1 ∨ r.size = 1) :
    r.common s = s.common r ↔ ¬ s.Mixed r := by
  by_cases hs : s.size = 1
  · rw [common_of_single hs]
    by_cases hr : r.size = 1
    · rw [common_of_single hr]
      unfold Mixed
      constructor
      · intro same mixed
        exact mixed.1 same.symm
      · intro unmixed
        by_contra differ
        exact unmixed ⟨Ne.symm differ, hs, hr⟩
    · rw [common_of_many hr]
      exact iff_of_true rfl fun mixed => hr mixed.2.2
  · rw [common_of_many hs]
    refine iff_of_true ?_ fun mixed => hs mixed.2.1
    rcases together with rfl | single | hr
    · exact (common_of_many hs).symm
    · exact absurd single hs
    · exact (common_of_single hr).symm

/-- In either order the common shape has as many elements. -/
theorem common_size_comm (together : s = r ∨ s.size = 1 ∨ r.size = 1) :
    (r.common s).size = (s.common r).size := by
  by_cases mixed : s.Mixed r
  · obtain ⟨-, hs, hr⟩ := mixed
    rw [common_of_single hs, common_of_single hr, hs, hr]
  · rw [(common_comm_iff together).mpr mixed]

end Shape

/-! ### Combining number by number -/

namespace Tensor

variable {α : Type} [Zero α] {operator operator' : Operator} {f : α → α → α} {a b c : Tensor α}

omit [Zero α] in
theorem size_eq_one_iff {t : Tensor α} : t.size = 1 ↔ t.shape.size = 1 := by
  rw [length_eq_size]

/-- Two tensors go together if their shapes are equal or one of them has a single element. -/
theorem zipWith_isOk_iff :
    (∃ c, zipWith operator f a b = .ok c) ↔ a.shape = b.shape ∨ a.size = 1 ∨ b.size = 1 := by
  rw [size_eq_one_iff, size_eq_one_iff]
  constructor
  · rintro ⟨c, made⟩
    obtain ⟨ha, hb, -, -⟩ := zipWith_ok made
    rcases ha with single | ha
    · exact .inr (.inl single)
    · rcases hb with single | hb
      · exact .inr (.inr single)
      · exact .inl (ha.trans hb.symm)
  · rintro (same | single | single)
    · exact zipWith_of_spreads (.inr same) (.inr rfl)
    · exact zipWith_of_spreads (.inl single) (.inr rfl)
    · exact zipWith_of_spreads (.inr rfl) (.inl single)

omit [Zero α] in
theorem zipWith_error {e : TensorError} (failed : zipWith operator f a b = .error e) :
    e = .shapesDiffer operator a.shape b.shape := by
  unfold zipWith at failed
  split at failed
  · cases failed
  · split at failed
    · cases failed
    · cases failed
    · cases failed
      rfl

/-- The result has the shape of an operand that has not a single element, and of the first one if
both have. -/
theorem zipWith_shape (made : zipWith operator f a b = .ok c) :
    (a.size ≠ 1 → c.shape = a.shape) ∧ (b.size ≠ 1 → c.shape = b.shape) ∧
      (a.size = 1 → b.size = 1 → c.shape = a.shape) := by
  obtain ⟨ha, hb, shape, -⟩ := zipWith_ok made
  simp only [ne_eq, size_eq_one_iff]
  refine ⟨fun many => (ha.resolve_left many).symm, fun many => (hb.resolve_left many).symm,
    fun _ single => ?_⟩
  rw [shape, Shape.common_of_single single]

/-- With operands and arguments swapped the same numbers come out in the same order. -/
theorem zipWith_swapped (made : zipWith operator f a b = .ok c) :
    ∃ d, zipWith operator' (fun y x => f x y) b a = .ok d ∧ d.data = c.data ∧
      (d.shape = c.shape ↔ ¬ (a.size = 1 ∧ b.size = 1 ∧ a.rank ≠ b.rank)) := by
  have together := zipWith_isOk_iff.mp ⟨c, made⟩
  have ok : ∃ d, zipWith operator' (fun y x => f x y) b a = .ok d := by
    rw [zipWith_isOk_iff, eq_comm, or_comm (a := b.size = 1)]
    exact together
  obtain ⟨d, swapped⟩ := ok
  obtain ⟨-, -, shape, numbers⟩ := zipWith_ok made
  obtain ⟨-, -, shape', numbers'⟩ := zipWith_ok swapped
  rw [size_eq_one_iff, size_eq_one_iff] at together ⊢
  have size : d.shape.size = c.shape.size := by
    rw [shape, shape', Shape.common_size_comm together]
  refine ⟨d, swapped, ?_, ?_⟩
  · rw [data_eq_map_coord d, data_eq_map_coord c, size]
    refine List.map_congr_left fun k hk => ?_
    have hk : k < c.shape.size := List.mem_range.mp hk
    rw [numbers k hk, numbers' k (size ▸ hk)]
  · rw [shape, shape', Shape.common_comm_iff together, Shape.mixed_iff]
    rfl

end Tensor

/-! ### The operations -/

/-- The operations that combine two tensors number by number. -/
inductive Elementwise (α : Type) where
  | add
  | sub
  | mul
  | div
  | combine (f : α → α → α)

namespace Elementwise

variable {α : Type}

/-- The name under which an operation fails. -/
def operator : Elementwise α → Operator
  | add => .add
  | sub => .subtract
  | mul => .multiply
  | div => .divide
  | combine _ => .combine

variable [Add α] [Sub α] [Mul α] [Div α]

/-- What an operation does with two numbers. -/
def number : Elementwise α → α → α → α
  | add => (· + ·)
  | sub => (· - ·)
  | mul => (· * ·)
  | div => (· / ·)
  | combine f => f

variable [Zero α] [BEq α]

def run : Elementwise α → Tensor α → Tensor α → Except TensorError (Tensor α)
  | add => Tensor.add
  | sub => Tensor.sub
  | mul => Tensor.mul
  | div => Tensor.div
  | combine f => Tensor.combine f

omit [Add α] [Sub α] [Mul α] [Div α] in
/-- A tensor can be the second operand: a divisor has no zero in it. -/
def Takes (op : Elementwise α) (b : Tensor α) : Prop :=
  match op with
  | div => ∀ x ∈ b.data, (x == 0) = false
  | _ => True

instance (op : Elementwise α) (b : Tensor α) : Decidable (op.Takes b) :=
  match op with
  | div => inferInstanceAs (Decidable (∀ x ∈ b.data, (x == 0) = false))
  | add | sub | mul | combine _ => isTrue trivial

variable {op : Elementwise α} {a b c : Tensor α}

theorem run_of_takes (takes : op.Takes b) :
    op.run a b = Tensor.zipWith op.operator op.number a b := by
  cases op with
  | div => exact if_neg (by simpa [Tensor.hasZero, Takes] using takes)
  | add | sub | mul | combine f => rfl

theorem run_of_not_takes (zero : ¬ op.Takes b) : op.run a b = .error .zeroDivisor := by
  cases op with
  | div => exact if_pos (by simpa [Tensor.hasZero, Takes] using zero)
  | add | sub | mul | combine f => exact absurd trivial zero

theorem run_zeroDivisor_iff : op.run a b = .error .zeroDivisor ↔ ¬ op.Takes b := by
  constructor
  · intro failed takes
    rw [run_of_takes takes] at failed
    cases Tensor.zipWith_error failed
  · exact run_of_not_takes

theorem run_ok (made : op.run a b = .ok c) :
    Tensor.zipWith op.operator op.number a b = .ok c := by
  by_cases takes : op.Takes b
  · rwa [run_of_takes takes] at made
  · cases (run_of_not_takes takes).symm.trans made

/-- A division fails for a zero in the divisor, whatever the shapes, and for nothing else does an
operation fail so. Apart from that two tensors go together, in either order, if their shapes are
equal or one of them has a single element. The result has the shape of an operand that has not a
single element, and of the first one if both have; at each offset it has what the operation makes of
the numbers of the operands there, a single element standing at every offset. With operands and
arguments swapped the same numbers come out in the same order, and in the same shape unless both
operands have a single element and their ranks differ. -/
theorem elementwise_laws (op : Elementwise α) (a b : Tensor α) :
    (op.run a b = .error .zeroDivisor ↔ ¬ op.Takes b) ∧
      (op.Takes b →
        ((∃ c, op.run a b = .ok c) ↔ a.shape = b.shape ∨ a.size = 1 ∨ b.size = 1) ∧
          ∀ e, op.run a b = .error e → e = .shapesDiffer op.operator a.shape b.shape) ∧
      (op.Takes a → op.Takes b → ((∃ c, op.run a b = .ok c) ↔ ∃ c, op.run b a = .ok c)) ∧
      ∀ c, op.run a b = .ok c →
        (a.size ≠ 1 → c.shape = a.shape) ∧ (b.size ≠ 1 → c.shape = b.shape) ∧
          (a.size = 1 → b.size = 1 → c.shape = a.shape) ∧
          (∀ k < c.size, c.coord k = op.number (a.spread k) (b.spread k)) ∧
          ∃ d, Tensor.combine (fun y x => op.number x y) b a = .ok d ∧ d.data = c.data ∧
            (d.shape = c.shape ↔ ¬ (a.size = 1 ∧ b.size = 1 ∧ a.rank ≠ b.rank)) := by
  refine ⟨run_zeroDivisor_iff, fun takes => ?_, fun first second => ?_, fun c made => ?_⟩
  · rw [run_of_takes takes]
    exact ⟨Tensor.zipWith_isOk_iff, fun e failed => Tensor.zipWith_error failed⟩
  · rw [run_of_takes first, run_of_takes second, Tensor.zipWith_isOk_iff, Tensor.zipWith_isOk_iff,
      eq_comm, or_comm (a := a.size = 1)]
  · obtain ⟨-, -, -, numbers⟩ := Tensor.zipWith_ok (run_ok made)
    obtain ⟨first, second, both⟩ := Tensor.zipWith_shape (run_ok made)
    refine ⟨first, second, both, fun k hk => ?_, Tensor.zipWith_swapped (run_ok made)⟩
    exact numbers k (c.length_eq_size ▸ hk)

/-- Two numbers divided by a single one, and the other way round. -/
theorem shares_laws :
    let a : Tensor Int := ⟨[2], [6, 9], rfl⟩
    let b : Tensor Int := ⟨[1, 1], [3], rfl⟩
    (div.Takes a ∧ div.Takes b ∧ ∃ c, div.run b a = .ok c) ∧
      ∃ c, div.run a b = .ok c ∧ c.shape = [2] ∧ c.coord 1 = 3 ∧
        ∃ d, Tensor.combine (fun y x : Int => x / y) b a = .ok d ∧ d.data = c.data ∧
          d.shape = c.shape := by
  intro a b
  obtain ⟨-, together, either, results⟩ := elementwise_laws div a b
  have first : div.Takes a := by decide
  have second : div.Takes b := by decide
  obtain ⟨isOk, -⟩ := together second
  obtain ⟨c, made⟩ := isOk.mpr (.inr (.inr rfl))
  obtain ⟨shape, -, -, numbers, d, swapped, data, same⟩ := results c made
  have two : c.shape = [2] := shape (by decide)
  have inside : 1 < c.size := by
    rw [Tensor.length_eq_size, two]
    decide
  refine ⟨⟨first, second, (either first second).mp ⟨c, made⟩⟩, c, made, two, numbers 1 inside, d,
    swapped, data, same.mpr ?_⟩
  rintro ⟨single, -, -⟩
  cases single

end Elementwise

end GradientReplay
