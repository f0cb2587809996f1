import GradientReplay.Graph.Arena
import GradientReplay.Proofs.Recorder.History
import GradientReplay.Proofs.Tensor.Offset
import GradientReplay.Tensor.Random

/-!
Tensors as a caller makes, reads and changes them.

A history is a list of steps, each of which makes a tensor or changes one in place, or does nothing
if it names a tensor that the caller does not hold or if the operation fails. The shape of a new
tensor follows from the shapes of those it is made of (`Holding.make?_shape`). A tensor keeps its
identity and its shape whatever is done after it was made (`Holding.run_keeps`), and each of its
elements is read and written at its own index list (`Holding.element_access`).
-/

namespace GradientReplay

theorem toOption_eq_some {ε β : Type} {result : Except ε β} {b : β}
    (h : result.toOption = some b) : result = .ok b := by
  cases result with
  | ok c => exact congrArg Except.ok (Option.some.inj h)
  | error e => cases h

/-- The tensors that a caller holds; the one with identity `k` is at position `k`. -/
abbrev Holding (α : Type) := List (Tensor α)

namespace Holding

/-- What makes a new tensor. -/
inductive Making (α : Type) where
  /-- Numbers in a shape that they have to fill. -/
  | list (data : List α) (shape : Shape)
  /-- One number everywhere. -/
  | fill (shape : Shape) (x : α)
  /-- A number for each offset, such as one that is drawn at random. -/
  | generate (shape : Shape) (number : Nat → α)
  | copy (x : TensorId)
  | zerosLike (x : TensorId)
  /-- A function at every element, such as a change of sign, an integer power, or an operation with
  a number. -/
  | map (f : α → α) (x : TensorId)
  | transpose (x : TensorId)
  /-- An elementwise operation or a matrix product. -/
  | compute (term : Term α TensorId)

/-- The shape of a new tensor, told from the shapes of those it is made of. -/
def Making.shape {α : Type} (shapeOf : TensorId → Shape) : Making α → Shape
  | list _ shape | fill shape _ | generate shape _ => shape
  | copy x | zerosLike x | map _ x => shapeOf x
  | transpose x => (shapeOf x).reverse
  | compute term => (term.map shapeOf).shape

/-- What a caller can do with tensors. -/
inductive Step (α : Type) where
  | make (m : Making α)
  /-- Write one element in place. -/
  | set (id : TensorId) (index : List Nat) (x : α)
  /-- Add another tensor in place. -/
  | increase (id other : TensorId)
  /-- Subtract another tensor in place. -/
  | decrease (id other : TensorId)

variable {α : Type}

/-- The tensor of an identity, if the caller holds it. -/
def find (held : Holding α) (id : TensorId) : Except Unit (Tensor α) :=
  match held[id]? with
  | some t => .ok t
  | none => .error ()

def shapeOf (held : Holding α) (id : TensorId) : Shape := (held[id]?.map (·.shape)).getD []

/-- Change a tensor in place, if the caller holds it. -/
def change (held : Holding α) (id : TensorId) (f : Tensor α → Except TensorError (Tensor α)) :
    Holding α :=
  match held[id]? with
  | some t => held.set id (Operand.change ⟨id, t⟩ f).state.tensor
  | none => held

/-- Change a tensor in place by another one, if the caller holds both. -/
def changeBy (held : Holding α) (id other : TensorId)
    (f : Tensor α → Tensor α → Except TensorError (Tensor α)) : Holding α :=
  match held[other]? with
  | some b => held.change id (f · b)
  | none => held

section Steps

variable [Zero α] [Add α] [Sub α] [Mul α] [Div α] [BEq α]

/-- The new tensor, if it can be made. -/
def make? (held : Holding α) : Making α → Option (Tensor α)
  | .list data shape => (Tensor.ofList? data shape).toOption
  | .fill shape x => Tensor.fill? shape x
  | .generate shape number => if shape.storable then some (.generate shape number) else none
  | .copy x => held[x]?
  | .zerosLike x => held[x]?.map (·.zerosLike)
  | .map f x => held[x]?.map (·.map f)
  | .transpose x => held[x]?.bind (·.transpose.toOption)
  | .compute term => (term.traverse held.find).toOption.bind (·.eval.toOption)

/-- What the caller holds after a step. -/
def perform (held : Holding α) : Step α → Holding α
  | .make m => held ++ (held.make? m).toList
  | .set id index x => held.change id (·.set index x)
  | .increase id other => held.changeBy id other Tensor.increase
  | .decrease id other => held.changeBy id other Tensor.decrease

def run (held : Holding α) (steps : List (Step α)) : Holding α := steps.foldl perform held

end Steps

/-! ### New tensors -/

variable {held : Holding α} {id : TensorId} {t u : Tensor α}

theorem shapeOf_eq (holds : held[id]? = some t) : held.shapeOf id = t.shape := by
  rw [shapeOf, holds]
  rfl

theorem find_ok (found : held.find id = .ok t) : held[id]? = some t := by
  unfold find at found
  split at found
  · rename_i u hu
    cases found
    exact hu
  · cases found

theorem traverse_shape {term : Term α TensorId} {operands : Term α (Tensor α)}
    (found : term.traverse held.find = .ok operands) :
    operands.map (·.shape) = term.map held.shapeOf := by
  cases term with
  | unary f x =>
      obtain ⟨a, ha, found⟩ := bind_ok_iff.mp found
      cases found
      simp only [Term.map, shapeOf_eq (find_ok ha)]
  | binary f x c =>
      obtain ⟨a, ha, found⟩ := bind_ok_iff.mp found
      obtain ⟨b, hb, found⟩ := bind_ok_iff.mp found
      cases found
      simp only [Term.map, shapeOf_eq (find_ok ha), shapeOf_eq (find_ok hb)]
  | arithmetic operation x y =>
      obtain ⟨a, ha, found⟩ := bind_ok_iff.mp found
      obtain ⟨b, hb, found⟩ := bind_ok_iff.mp found
      cases found
      simp only [Term.map, shapeOf_eq (find_ok ha), shapeOf_eq (find_ok hb)]

section Steps

variable [Zero α] [Add α] [Sub α] [Mul α] [Div α] [BEq α]

/-- The shape of a new tensor follows from the shapes of those it is made of. -/
theorem make?_shape {m : Making α} (made : held.make? m = some t) :
    t.shape = m.shape held.shapeOf := by
  cases m with
  | list data shape =>
      have made := toOption_eq_some made
      unfold Tensor.ofList? at made
      split at made
      · cases made
        rfl
      · cases made
  | fill shape x =>
      obtain ⟨-, ⟨⟩⟩ := Option.ite_none_right_eq_some.mp made
      rfl
  | generate shape number =>
      obtain ⟨-, ⟨⟩⟩ := Option.ite_none_right_eq_some.mp made
      rfl
  | copy x => exact (shapeOf_eq made).symm
  | zerosLike x =>
      obtain ⟨a, ha, rfl⟩ := Option.map_eq_some_iff.mp made
      exact (shapeOf_eq ha).symm
  | map f x =>
      obtain ⟨a, ha, rfl⟩ := Option.map_eq_some_iff.mp made
      exact (shapeOf_eq ha).symm
  | transpose x =>
      obtain ⟨a, ha, made⟩ := Option.bind_eq_some_iff.mp made
      obtain ⟨m, n, before, after, -⟩ := Tensor.transpose_ok (toOption_eq_some made)
      rw [after, Making.shape, shapeOf_eq ha, before]
      rfl
  | compute term =>
      obtain ⟨operands, found, made⟩ := Option.bind_eq_some_iff.mp made
      rw [Term.eval_shape (toOption_eq_some made), traverse_shape (toOption_eq_some found)]
      rfl

end Steps

/-- A tensor of random numbers is one whose numbers are given by offset. -/
theorem make?_of_random? {held : Holding Float} {low high : Float} {shape : Shape} {seed : UInt64}
    {t : Tensor Float} (drawn : Tensor.random? low high shape seed = some t) :
    held.make? (.generate shape (Tensor.draw low high seed)) = some t := by
  obtain ⟨⟨-, -, -, -, storable⟩, ⟨⟩⟩ := Option.ite_none_right_eq_some.mp drawn
  exact if_pos storable

/-! ### Changes in place -/

/-- A change that keeps the shape of every tensor keeps the identity and the shape of each that the
caller holds. -/
theorem change_keeps {f : Tensor α → Except TensorError (Tensor α)}
    (shape : ∀ a b, f a = .ok b → b.shape = a.shape) (target : TensorId)
    (holds : held[id]? = some t) :
    ∃ u, (held.change target f)[id]? = some u ∧ u.shape = t.shape := by
  unfold change
  split
  · rename_i a ha
    refine Session.keep_set ha ?_ id t holds
    unfold Operand.change
    cases changed : f a with
    | ok b => exact shape a b changed
    | error e => rfl
  · exact ⟨t, holds, rfl⟩

theorem changeBy_keeps {f : Tensor α → Tensor α → Except TensorError (Tensor α)}
    (shape : ∀ a b c, f a b = .ok c → c.shape = a.shape) (target other : TensorId)
    (holds : held[id]? = some t) :
    ∃ u, (held.changeBy target other f)[id]? = some u ∧ u.shape = t.shape := by
  unfold changeBy
  split
  · rename_i b _
    exact change_keeps (fun a c => shape a b c) target holds
  · exact ⟨t, holds, rfl⟩

section Steps

variable [Zero α] [Add α] [Sub α] [Mul α] [Div α] [BEq α]

/-- After a step the caller still holds each tensor, in its shape. -/
theorem perform_keeps (step : Step α) (holds : held[id]? = some t) :
    ∃ u, (held.perform step)[id]? = some u ∧ u.shape = t.shape := by
  cases step with
  | make m => exact Session.keep_append _ id t holds
  | set target index x =>
      exact change_keeps (fun a b written => (Tensor.set_ok written).2.1) target holds
  | increase target other =>
      exact changeBy_keeps (fun a b c made => (Tensor.update_ok made).2.1) target other holds
  | decrease target other =>
      exact changeBy_keeps (fun a b c made => (Tensor.update_ok made).2.1) target other holds

/-- A tensor keeps its identity and its shape whatever is done later. -/
theorem run_keeps (steps : List (Step α)) (holds : held[id]? = some t) :
    ∃ u, (held.run steps)[id]? = some u ∧ u.shape = t.shape := by
  induction steps generalizing held t with
  | nil => exact ⟨t, holds, rfl⟩
  | cons step steps ih =>
      obtain ⟨a, ha, shape⟩ := perform_keeps step holds
      obtain ⟨u, hu, shape'⟩ := ih ha
      exact ⟨u, hu, shape'.trans shape⟩

/-! ### Elements -/

/-- What the caller holds after a history. -/
def after (steps : List (Step α)) : Holding α := run [] steps

theorem after_append (steps more : List (Step α)) :
    after (steps ++ more) = (after steps).run more := List.foldl_append

/-- An element is written in the tensor of one identity. -/
theorem perform_set_of_contains {index : List Nat} {x : α} (holds : held[id]? = some t)
    (h : t.shape.Contains index) :
    ∃ u, Operand.change ⟨id, t⟩ (·.set index x) = .done ⟨id, u⟩ () ∧
      held.perform (.set id index x) = held.set id u ∧ t.set index x = .ok u := by
  obtain ⟨u, written, -, -⟩ := Tensor.set_of_contains h x
  have changed : Operand.change ⟨id, t⟩ (·.set index x) = .done ⟨id, u⟩ () := by
    rw [Operand.change, written]
    rfl
  refine ⟨u, changed, ?_, written⟩
  rw [perform, change, holds]
  simp only [changed, Outcome.done_state]

theorem perform_set_of_not_contains {index : List Nat} {x : α} (holds : held[id]? = some t)
    (h : ¬ t.shape.Contains index) :
    Operand.change ⟨id, t⟩ (·.set index x) = ⟨⟨id, t⟩, .error (.outOfBounds index t.shape)⟩ ∧
      held.perform (.set id index x) = held := by
  have changed : Operand.change ⟨id, t⟩ (·.set index x) =
      ⟨⟨id, t⟩, .error (.outOfBounds index t.shape)⟩ := by
    rw [Operand.change, Tensor.set_of_not_contains h]
    rfl
  refine ⟨changed, ?_⟩
  rw [perform, change, holds]
  simp only [changed]
  obtain ⟨inside, rfl⟩ := List.getElem?_eq_some_iff.mp holds
  exact List.set_getElem_self inside

/-- After every history a tensor has as many elements as its shape has places, and so has each that
can be made next, whose shape follows from the shapes of those it is made of. An element is read
exactly at the index lists with one index per axis, each below its dimension, and it is the one at
the row-major offset; these offsets are the numbers below the size, each that of one index list. At
such an index list an element is written: the tensor keeps its identity and shape, what was written
is read there, and at every other index list what was read before. Elsewhere the writing fails and
changes nothing. Whatever is done later, the tensor keeps its identity and its shape. -/
theorem element_access (steps : List (Step α)) (id : TensorId) (t : Tensor α)
    (holds : (after steps)[id]? = some t) :
    t.data.length = t.shape.size ∧
      (∀ m u, (after steps).make? m = some u →
        u.shape = m.shape (after steps).shapeOf ∧ u.data.length = u.shape.size) ∧
      (∀ index, (∃ x, t.get index = .ok x) ↔ t.shape.Contains index) ∧
      (∀ index x, t.get index = .ok x ↔
        t.shape.Contains index ∧ t.data[t.shape.offset index]? = some x) ∧
      (∀ index, t.shape.Contains index → t.shape.offset index < t.shape.size) ∧
      (∀ k < t.shape.size, ∃! index, t.shape.Contains index ∧ t.shape.offset index = k) ∧
      (∀ index x, t.shape.Contains index →
        ∃ u, Operand.change ⟨id, t⟩ (·.set index x) = .done ⟨id, u⟩ () ∧
          after (steps ++ [.set id index x]) = (after steps).set id u ∧ u.shape = t.shape ∧
          u.get index = .ok x ∧ ∀ other, other ≠ index → u.get other = t.get other) ∧
      (∀ index x, ¬ t.shape.Contains index →
        Operand.change ⟨id, t⟩ (·.set index x) =
            ⟨⟨id, t⟩, .error (.outOfBounds index t.shape)⟩ ∧
          after (steps ++ [.set id index x]) = after steps) ∧
      ∀ more, ∃ u, (after (steps ++ more))[id]? = some u ∧ u.shape = t.shape := by
  refine ⟨t.length_data, fun m u made => ⟨make?_shape made, u.length_data⟩,
    fun index => Tensor.get_isOk_iff, fun index x => Tensor.get_ok_iff,
    fun index contained => Shape.offset_lt_size contained,
    fun k hk => Shape.existsUnique_offset hk, fun index x contained => ?_,
    fun index x outside => ?_, fun more => ?_⟩
  · obtain ⟨u, changed, performed, written⟩ := perform_set_of_contains holds contained
    obtain ⟨here, elsewhere⟩ := Tensor.get_of_set written
    rw [after_append]
    exact ⟨u, changed, performed, (Tensor.set_ok written).2.1, here, elsewhere⟩
  · rw [after_append]
    exact perform_set_of_not_contains holds outside
  · rw [after_append]
    exact run_keeps more holds

end Steps

/-- A matrix and its transpose, and then a change of the matrix; numbers that do not fill their
shape make nothing. -/
def turned : List (Step Int) :=
  [.make (.list [1, 2, 3, 4, 5, 6] [2, 3]), .make (.transpose 0), .make (.list [1] [2]),
    .set 0 [0, 0] 9]

/-- An element of the transpose is read, written, and sought outside. -/
theorem turned_access :
    ∃ t, (after turned)[1]? = some t ∧ t.shape = [3, 2] ∧ t.get [2, 0] = .ok 3 ∧
      (∃! index, t.shape.Contains index ∧ t.shape.offset index = 4) ∧
      (∃ u, after (turned ++ [.set 1 [2, 0] 30]) = (after turned).set 1 u ∧
        u.get [2, 0] = .ok 30 ∧ u.get [1, 1] = .ok 5) ∧
      after (turned ++ [.set 1 [0, 2] 30]) = after turned := by
  have holds : (after turned)[1]? = some ⟨[3, 2], [1, 4, 2, 5, 3, 6], rfl⟩ := rfl
  obtain ⟨-, -, -, read, -, offsets, inside, outside, -⟩ := element_access turned 1 _ holds
  obtain ⟨u, -, performed, -, here, elsewhere⟩ := inside [2, 0] 30 (by decide)
  refine ⟨_, holds, rfl, (read [2, 0] 3).mpr ⟨by decide, rfl⟩, offsets 4 (by decide),
    ⟨u, performed, here, ?_⟩, (outside [0, 2] 30 (by decide)).2⟩
  rw [elsewhere [1, 1] (by decide), read]
  exact ⟨by decide, rfl⟩

end Holding

end GradientReplay
