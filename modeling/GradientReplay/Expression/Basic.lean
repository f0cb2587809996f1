import GradientReplay.Function.Basic
import GradientReplay.Graph.Nodes
import GradientReplay.Outcome
import GradientReplay.Tensor.Matrix

/-!
Terms: one operation applied to arguments. What the arguments are is left open. Over tensors a
term can be evaluated; over nodes it is what an expression of a build computes; over tensors with
an identity it is what a caller asks to have recorded.
-/

namespace GradientReplay

/-- The operations that carry no function with them. -/
inductive Arithmetic where
  | add
  | subtract
  | dot
  | multiply
  | divide
  deriving DecidableEq, Repr

/-- The name by which a caller asks for an operation. -/
def Arithmetic.name : Arithmetic → String
  | .add => "Add"
  | .subtract => "Subtract"
  | .dot => "Dot"
  | .multiply => "Multiply"
  | .divide => "Divide"

def Arithmetic.all : List Arithmetic := [.add, .subtract, .dot, .multiply, .divide]

def Arithmetic.ofName? (name : String) : Option Arithmetic :=
  Arithmetic.all.find? fun operation => operation.name == name

/-- One operation applied to arguments of type `ν`. -/
inductive Term (α ν : Type) where
  | unary (f : UnaryFunction α) (x : ν)
  | binary (f : BinaryFunction α) (x c : ν)
  | arithmetic (operation : Arithmetic) (x y : ν)

namespace Term

variable {α ν μ : Type}

/-- The first argument. -/
def first : Term α ν → ν
  | unary _ x | binary _ x _ | arithmetic _ x _ => x

/-- The second argument; a unary function has none. -/
def second? : Term α ν → Option ν
  | unary _ _ => none
  | binary _ _ y | arithmetic _ _ y => some y

/-- The arguments in order. -/
def arguments (t : Term α ν) : List ν := t.first :: t.second?.toList

/-- The same operation on other arguments. -/
def map (g : ν → μ) : Term α ν → Term α μ
  | unary f x => unary f (g x)
  | binary f x c => binary f (g x) (g c)
  | arithmetic operation x y => arithmetic operation (g x) (g y)

/-- Replace the arguments in order, until one cannot be. -/
def traverse {ε : Type} (g : ν → Except ε μ) : Term α ν → Except ε (Term α μ)
  | unary f x => do
      let x ← g x
      .ok (unary f x)
  | binary f x c => do
      let x ← g x
      let c ← g c
      .ok (binary f x c)
  | arithmetic operation x y => do
      let x ← g x
      let y ← g y
      .ok (arithmetic operation x y)

@[simp] theorem arguments_map (g : ν → μ) (t : Term α ν) :
    (t.map g).arguments = t.arguments.map g := by
  cases t <;> rfl

@[simp] theorem map_map {κ : Type} (g : ν → μ) (h : μ → κ) (t : Term α ν) :
    (t.map g).map h = t.map fun a => h (g a) := by
  cases t <;> rfl

theorem first_mem_arguments (t : Term α ν) : t.first ∈ t.arguments := List.mem_cons_self

theorem map_congr {g h : ν → μ} {t : Term α ν} (same : ∀ a ∈ t.arguments, g a = h a) :
    t.map g = t.map h := by
  cases t <;> simp_all [map, arguments, first, second?]

/-- A term whose arguments can all be replaced is the term over what replaces them. -/
theorem traverse_ok {ε : Type} {g : ν → Except ε μ} {h : ν → μ} {t : Term α ν}
    (replace : ∀ a ∈ t.arguments, g a = .ok (h a)) : t.traverse g = .ok (t.map h) := by
  cases t <;>
    simp_all [traverse, map, arguments, first, second?, bind, Except.bind]

theorem traverse_congr {ε : Type} {g h : ν → Except ε μ} {t : Term α ν}
    (same : ∀ a ∈ t.arguments, g a = h a) : t.traverse g = t.traverse h := by
  cases t <;> simp_all [traverse, arguments, first, second?]

/-- If a term was replaced, each of its arguments was, and there are no others. -/
theorem traverse_ok_arguments {ε : Type} {g : ν → Except ε μ} {t : Term α ν} {u : Term α μ}
    (h : t.traverse g = .ok u) :
    (∀ a ∈ t.arguments, ∃ b, g a = .ok b) ∧ ∀ b ∈ u.arguments, ∃ a ∈ t.arguments, g a = .ok b := by
  cases t with
  | unary f x =>
      obtain ⟨x', hx, h⟩ := bind_ok_iff.mp h
      cases h
      simp [arguments, first, second?, hx]
  | binary f x c =>
      obtain ⟨x', hx, h⟩ := bind_ok_iff.mp h
      obtain ⟨c', hc, h⟩ := bind_ok_iff.mp h
      cases h
      simp [arguments, first, second?, hx, hc]
  | arithmetic operation x y =>
      obtain ⟨x', hx, h⟩ := bind_ok_iff.mp h
      obtain ⟨y', hy, h⟩ := bind_ok_iff.mp h
      cases h
      simp [arguments, first, second?, hx, hy]

/-- The tensor that a term over tensors stands for. -/
def eval [Zero α] [Add α] [Sub α] [Mul α] [Div α] [BEq α] :
    Term α (Tensor α) → Except TensorError (Tensor α)
  | unary f x => .ok (f.apply x)
  | binary f x c => f.apply x c
  | arithmetic .add x y => x.add y
  | arithmetic .subtract x y => x.sub y
  | arithmetic .dot x y => x.matMul y
  | arithmetic .multiply x y => x.mul y
  | arithmetic .divide x y => x.div y

/-- The name of a term in chains. -/
def label : Term α ν → String
  | unary _ _ => "UNARY_FUNCTION"
  | binary _ _ _ => "BINARY_FUNCTION"
  | arithmetic .add _ _ => "ADD"
  | arithmetic .subtract _ _ => "SUBTRACT"
  | arithmetic .dot _ _ => "DOT"
  | arithmetic .multiply _ _ => "MULTIPLY"
  | arithmetic .divide _ _ => "DIVIDE"

end Term

/-- One recorded step: the result node holds the value of a term over nodes. -/
structure Expression (α : Type) where
  /-- Expressions are numbered in the order in which they were recorded. -/
  id : ExpressionId
  term : Term α NodeId
  result : NodeId

end GradientReplay
