import GradientReplay.Graph.Arena
import GradientReplay.Proofs.Graph.View
import GradientReplay.Proofs.Tensor.Fitting

/-!
Changes in place against the operations that make new tensors.

A change in place lets only its right operand have a single element. Where it is made it leaves the
very tensor that the pure operation makes (`Sign.change_of_spreads`), and elsewhere nothing, also
where the pure operation would spread the left operand. So the gradient that a node gathers in place
is the fold of the pure operations over the contributions in their order (`Node.accumulateAll_eq`).
-/

namespace GradientReplay

variable {α : Type}

/-! ### Tensors changed in place -/

/-- Where a change in place is made, it leaves what the pure operation makes. -/
theorem Tensor.update_eq_zipWith [Zero α] {operator operator' : Operator} {f : α → α → α}
    {a b : Tensor α} (spreads : b.shape.SpreadsOver a.shape) :
    ∃ c, update operator f a b = .ok c ∧ zipWith operator' f a b = .ok c ∧ c.shape = a.shape := by
  unfold update zipWith
  split
  · exact ⟨_, rfl, rfl, rfl⟩
  · rename_i differ
    have single : b.shape.size = 1 := spreads.resolve_right (Ne.symm differ)
    rw [number?_of_single single]
    exact ⟨_, rfl, rfl, rfl⟩

namespace Sign

/-- The name under which a change in place fails. -/
def operator : Sign → Operator
  | plus => .increase
  | minus => .decrease

section Operations

variable [Add α] [Sub α]

/-- The contents of a tensor after another one was added in place, or subtracted. -/
def update : Sign → Tensor α → Tensor α → Except TensorError (Tensor α)
  | plus => Tensor.increase
  | minus => Tensor.decrease

/-- Add a tensor in place, or subtract it. -/
def change : Sign → Operand α → Tensor α → Outcome TensorError (Operand α) Unit
  | plus => Operand.increase
  | minus => Operand.decrease

/-- The sum of two tensors, or the difference, as a new one. -/
def combine : Sign → Tensor α → Tensor α → Except TensorError (Tensor α)
  | plus => Tensor.add
  | minus => Tensor.sub

theorem change_eq (sign : Sign) (x : Operand α) (b : Tensor α) :
    sign.change x b = x.change fun t => sign.update t b := by
  cases sign <;> rfl

variable [Zero α] {x : Operand α} {a b : Tensor α}

theorem update_eq_combine (sign : Sign) (spreads : b.shape.SpreadsOver a.shape) :
    ∃ c, sign.update a b = .ok c ∧ sign.combine a b = .ok c ∧ c.shape = a.shape := by
  cases sign with
  | plus => exact Tensor.update_eq_zipWith spreads
  | minus => exact Tensor.update_eq_zipWith spreads

theorem update_error_iff (sign : Sign) {e : TensorError} :
    sign.update a b = .error e ↔
      ¬ b.shape.SpreadsOver a.shape ∧ e = .shapesDiffer sign.operator a.shape b.shape := by
  cases sign with
  | plus => exact Tensor.update_error
  | minus => exact Tensor.update_error

theorem change_of_spreads (sign : Sign) (spreads : b.shape.SpreadsOver x.tensor.shape) :
    ∃ c, sign.combine x.tensor b = .ok c ∧ c.shape = x.tensor.shape ∧
      sign.change x b = .done { x with tensor := c } () := by
  obtain ⟨c, made, pure, shape⟩ := sign.update_eq_combine spreads
  refine ⟨c, pure, shape, ?_⟩
  rw [change_eq, Operand.change, made]
  rfl

theorem change_of_not_spreads (sign : Sign) (apart : ¬ b.shape.SpreadsOver x.tensor.shape) :
    sign.change x b = ⟨x, .error (.shapesDiffer sign.operator x.tensor.shape b.shape)⟩ := by
  rw [change_eq, Operand.change, sign.update_error_iff.mpr ⟨apart, rfl⟩]
  rfl

theorem change_isOk_iff (sign : Sign) :
    (sign.change x b).result = .ok () ↔ b.shape.SpreadsOver x.tensor.shape := by
  constructor
  · intro ok
    by_contra apart
    rw [sign.change_of_not_spreads apart] at ok
    cases ok
  · intro spreads
    obtain ⟨c, -, -, made⟩ := sign.change_of_spreads spreads
    rw [made]
    rfl

theorem change_error (sign : Sign) {e : TensorError}
    (failed : (sign.change x b).result = .error e) :
    (sign.change x b).state = x ∧ e = .shapesDiffer sign.operator x.tensor.shape b.shape := by
  have apart : ¬ b.shape.SpreadsOver x.tensor.shape := by
    intro spreads
    rw [sign.change_isOk_iff.mpr spreads] at failed
    cases failed
  rw [sign.change_of_not_spreads apart] at failed ⊢
  cases failed
  exact ⟨rfl, rfl⟩

/-- The pure operation also goes with a left operand of a single element. -/
theorem combine_of_single (sign : Sign) (single : a.shape.size = 1) :
    ∃ c, sign.combine a b = .ok c := by
  cases sign with
  | plus => exact Tensor.zipWith_of_spreads (.inl single) (.inr rfl)
  | minus => exact Tensor.zipWith_of_spreads (.inl single) (.inr rfl)

end Operations

variable [Add α] [Sub α] [Neg α]

/-- What a gradient begins with: a contribution with its sign. -/
def begin : Sign → Tensor α → Tensor α
  | plus, g => g
  | minus, g => g.neg

/-- A gradient after a contribution, made by pure operations. -/
def gather (sign : Sign) : Option (Tensor α) → Tensor α → Except TensorError (Tensor α)
  | none, g => .ok (sign.begin g)
  | some old, g => sign.combine old g

end Sign

/-! ### Gradients gathered in place -/

namespace Node

/-- The node takes gradients of this shape: of its own, or of any if it has a single element. -/
def Accepts (n : Node α) (g : Tensor α) : Prop := n.shape.size = 1 ∨ g.shape = n.shape

variable [Zero α] [Add α] [Sub α] [Neg α]

/-- Contributions to the gradient at an index, one after the other. -/
def accumulateAll (n : Node α) (i : Index) (cs : List (Sign × Tensor α)) :
    Outcome TensorError (Node α) Unit :=
  .each (fun n c => .ofExcept n (n.accumulate i c.1 c.2)) n cs

/-- The contributions, as the node takes them, gathered from the left by pure operations. -/
def gathered (n : Node α) (old : Option (Tensor α)) (cs : List (Sign × Tensor α)) :
    Except TensorError (Option (Tensor α)) :=
  cs.foldlM (fun old c => (c.1.gather old (n.fit c.2)).map some) old

variable {n : Node α} {i : Index} {sign : Sign} {old : Option (Tensor α)} {g : Tensor α}

omit [Sub α] [Neg α] in
/-- As the node takes it, an accepted gradient spreads over every other one. -/
theorem Accepts.spreads {o : Tensor α} (ho : n.Accepts o) (hg : n.Accepts g) :
    (n.fit g).shape.SpreadsOver o.shape := by
  rw [fit_shape]
  by_cases single : n.shape.size = 1
  · left
    unfold Shape.settle
    split
    · exact single
    · rename_i keep
      by_contra many
      exact keep ⟨single, many⟩
  · right
    rw [hg.resolve_left single, ho.resolve_left single, Shape.settle_self]

theorem combineGradient_eq_gather (hold : ∀ o ∈ old, n.Accepts o) (hg : n.Accepts g) :
    ∃ γ, combineGradient sign old (n.fit g) = .ok γ ∧ sign.gather old (n.fit g) = .ok γ ∧
      n.Accepts γ := by
  cases old with
  | none =>
      have shape : (sign.begin (n.fit g)).shape = (n.fit g).shape := by cases sign <;> rfl
      refine ⟨sign.begin (n.fit g), by cases sign <;> rfl, rfl, ?_⟩
      refine hg.imp_right fun own => ?_
      rw [shape, fit_shape, own, Shape.settle_self]
  | some o =>
      obtain ⟨γ, made, pure, shape⟩ := sign.update_eq_combine ((hold o rfl).spreads hg)
      refine ⟨γ, ?_, pure, (hold o rfl).imp_right fun own => shape.trans own⟩
      cases sign <;> exact made

theorem accumulate_eq_gather (opened : n.stopped = false)
    (hold : ∀ o ∈ n.gradient? i, n.Accepts o) (hg : n.Accepts g) :
    ∃ γ, n.accumulate i sign g = .ok (n.setGradient i γ) ∧
      sign.gather (n.gradient? i) (n.fit g) = .ok γ ∧ n.Accepts γ := by
  obtain ⟨γ, made, pure, accepts⟩ := combineGradient_eq_gather hold hg
  refine ⟨γ, ?_, pure, accepts⟩
  rw [accumulate, opened, made]
  rfl

/-- Accepted contributions are gathered in place as they are by pure operations, at their index
alone. -/
theorem accumulateAll_eq {cs : List (Sign × Tensor α)} (opened : n.stopped = false)
    (hold : ∀ o ∈ n.gradient? i, n.Accepts o) (hcs : ∀ c ∈ cs, n.Accepts c.2) :
    ∃ m, n.accumulateAll i cs = .done m () ∧ n.gathered (n.gradient? i) cs = .ok (m.gradient? i) ∧
      (∀ j, j ≠ i → m.gradient? j = n.gradient? j) ∧ m.ungrade = n.ungrade := by
  induction cs generalizing n with
  | nil => exact ⟨n, rfl, rfl, fun j _ => rfl, rfl⟩
  | cons c cs ih =>
      obtain ⟨γ, made, pure, accepts⟩ := accumulate_eq_gather opened hold (hcs c List.mem_cons_self)
      have here : (n.setGradient i γ).gradient? i = some γ := by
        rw [gradient?_setGradient, if_pos rfl]
      -- The node with its new gradient takes the other contributions as the node itself does.
      obtain ⟨m, run, gathers, frame, rest⟩ := ih (n := n.setGradient i γ) opened
        (by rw [here]; rintro o ⟨⟩; exact accepts)
        fun d hd => hcs d (List.mem_cons_of_mem c hd)
      refine ⟨m, ?_, ?_, fun j other => ?_, rest⟩
      · rw [accumulateAll, Outcome.each_cons, made]
        exact run
      · rw [gathered, List.foldlM_cons, pure]
        rw [here] at gathers
        exact gathers
      · rw [frame j other, gradient?_setGradient, if_neg other]

/-- A tensor is changed in place exactly if the other one has its shape or a single element. It then
keeps its shape and identity and holds what the pure operation makes of its old contents; otherwise
the change fails and the tensor stays as it is, also where it has a single element itself and the
pure operation would spread it. So a node that is not stopped, with nothing stored at an index or a
gradient that it accepts, gathers contributions of its shape, and of any shape if it has a single
element, as the pure operations do from the left: each is summed first where the node has a single
element and the contribution has not, and the first one begins the gradient with its sign. Nothing
else of the node changes. -/
theorem gathered_in_place :
    (∀ (sign : Sign) (x : Operand α) (b : Tensor α),
      ((sign.change x b).result = .ok () ↔ b.shape = x.tensor.shape ∨ b.size = 1) ∧
        ((sign.change x b).result = .ok () →
          ∃ c, sign.combine x.tensor b = .ok c ∧ c.shape = x.tensor.shape ∧
            (sign.change x b).state = { x with tensor := c }) ∧
        (∀ e, (sign.change x b).result = .error e →
          (sign.change x b).state = x ∧
            e = .shapesDiffer sign.operator x.tensor.shape b.shape) ∧
        (x.tensor.size = 1 → b.size ≠ 1 →
          (∃ c, sign.combine x.tensor b = .ok c) ∧
            ∃ e, sign.change x b = ⟨x, .error e⟩)) ∧
      ∀ (n : Node α) (i : Index) (cs : List (Sign × Tensor α)), n.stopped = false →
        (∀ o ∈ n.gradient? i, n.Accepts o) → (∀ c ∈ cs, n.Accepts c.2) →
        ∃ m, n.accumulateAll i cs = .done m () ∧
          n.gathered (n.gradient? i) cs = .ok (m.gradient? i) ∧
          (∀ j, j ≠ i → m.gradient? j = n.gradient? j) ∧ m.ungrade = n.ungrade := by
  refine ⟨fun sign x b => ?_, fun n i cs opened hold hcs => accumulateAll_eq opened hold hcs⟩
  have spreads_iff :
      b.shape.SpreadsOver x.tensor.shape ↔ b.shape = x.tensor.shape ∨ b.size = 1 := by
    rw [b.length_eq_size]
    exact or_comm
  refine ⟨sign.change_isOk_iff.trans spreads_iff, fun ok => ?_,
    fun e failed => sign.change_error failed, fun single many => ?_⟩
  · obtain ⟨c, pure, shape, made⟩ := sign.change_of_spreads (sign.change_isOk_iff.mp ok)
    exact ⟨c, pure, shape, by rw [made]; rfl⟩
  · rw [Tensor.length_eq_size] at single many
    have apart : ¬ b.shape.SpreadsOver x.tensor.shape :=
      not_or.mpr ⟨many, fun same => many (same ▸ single)⟩
    exact ⟨sign.combine_of_single single, _, sign.change_of_not_spreads apart⟩

/-- A node of a single element, with a gradient at another index. -/
def biasNode : Node Int := (create 0 (.fill [1] 0) false 0 (.leaf 0)).setGradient 3 (.fill [1] 7)

/-- A contribution of two elements, subtracted, and then one of another shape, added. A tensor of a
single element takes no tensor of two in place. -/
theorem biasNode_gathers :
    (let x : Operand Int := ⟨5, .fill [1] 2⟩
      let b : Tensor Int := .fill [2] 4
      (∃ c, x.tensor.add b = .ok c) ∧ ∃ e, x.increase b = ⟨x, .error e⟩) ∧
    biasNode.stopped = false ∧
      ∃ m, biasNode.accumulateAll 0 [(.minus, ⟨[2], [4, 5], rfl⟩), (.plus, .fill [1, 1] 1)] =
          .done m () ∧
        m.gradient? 0 = some (.fill [1] (-8)) ∧ m.gradient? 3 = some (.fill [1] 7) := by
  obtain ⟨changes, gathers⟩ := gathered_in_place (α := Int)
  refine ⟨(changes .plus ⟨5, .fill [1] 2⟩ (.fill [2] 4)).2.2.2 rfl (by decide), rfl, ?_⟩
  have nothing : ∀ o ∈ biasNode.gradient? 0, biasNode.Accepts o := by
    intro o ho
    cases ho
  obtain ⟨m, run, gathered, frame, -⟩ := gathers biasNode 0
    [(.minus, ⟨[2], [4, 5], rfl⟩), (.plus, .fill [1, 1] 1)] rfl nothing fun c _ => .inl rfl
  exact ⟨m, run, (Except.ok.inj gathered).symm, frame 3 (by decide)⟩

end Node

end GradientReplay
