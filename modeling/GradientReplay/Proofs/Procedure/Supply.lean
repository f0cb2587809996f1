import GradientReplay.Function.Arithmetic
import GradientReplay.Proofs.Procedure.Backward

/-!
Is a replay forward enough for the replay back?

The rules find every value they read: a replay back at an index that was computed never fails for
want of a value. The gradient of a result can be missing, since the backward order follows both
arguments of a function of two arguments while the rule hands a contribution to the first one only,
and since a stopped node takes none. Exactly when each expression that is reached was fed, no
gradient is missing (`backward_supplied_iff`).
-/

namespace GradientReplay

variable {α : Type} [Zero α] [Add α] [Sub α] [Mul α] [Div α] [Neg α] [BEq α]

namespace Procedure

/-- Each expression of the backward order that a replay back reaches has the gradient of its
result: when all rules before it succeed, they have fed it. -/
def Supplied (p : Procedure α) (i : Index) (g : Tensor α) : Prop :=
  ∀ before e after, p.backwardOrder = before ++ e :: after →
    (∃ out, (backward { p with backwardOrder := before } i g).result = .ok out) →
      p.Fed i before e.result

section Errors

variable {p : Procedure α} {i : Index} {g : Tensor α}

/-- The rules of the first expressions of the backward order succeed when the links give back and
the sweep over them succeeds. -/
theorem truncated_ok {before : List (Expression α)} :
    (∃ out, (backward { p with backwardOrder := before } i g).result = .ok out) ↔
      (p.given i g).result = .ok () ∧
        (Expression.backwardAll i before (p.given i g).state.2).result = .ok () := by
  constructor
  · rintro ⟨out, h⟩
    exact backward_ok h
  · rintro ⟨given, swept⟩
    refine ⟨p.input, ?_⟩
    have result := (backward_of_given (p := { p with backwardOrder := before }) given).2
    rw [result]
    exact congrArg (Except.map fun _ => p.input) swept

/-- A replay back fails as an operation on tensors or overflows while the links give back, or it
fails in the rule of an expression after all rules before it succeeded. -/
theorem backward_error_cases {cause : ReplayError} (h : (p.backward i g).result = .error cause) :
    ((∃ c, cause = .tensor c) ∨ cause = .indexOverflow) ∨
      ∃ before e after, p.backwardOrder = before ++ e :: after ∧
        (p.given i g).result = .ok () ∧
        (Expression.backwardAll i before (p.given i g).state.2).result = .ok () ∧
        (e.backward i (Expression.backwardAll i before (p.given i g).state.2).state).result =
          .error cause := by
  cases given : (p.given i g).result with
  | error e =>
      rw [backward_of_not_given given] at h
      cases h
      exact .inl (Link.giveBackAll_error_cases given)
  | ok b =>
      obtain ⟨before, e, after, split, ok, failed⟩ := (backward_error_of_given given).mp h
      exact .inr ⟨before, e, after, split, rfl, ok, failed⟩

variable (valid : p.plan.Valid) (holds : ∀ e ∈ p.forwardOrder, e.Holds i p.nodes)

include valid holds

/-- With all equations in place, the rule of an expression that was fed fails only as an operation
on tensors. -/
theorem rule_error_of_fed {before after : List (Expression α)} {e : Expression α}
    (split : p.backwardOrder = before ++ e :: after) (given : (p.given i g).result = .ok ())
    (ok : (Expression.backwardAll i before (p.given i g).state.2).result = .ok ())
    (fed : p.Fed i before e.result) :
    OnlyTensorErrors
      (e.backward i (Expression.backwardAll i before (p.given i g).state.2).state).result := by
  apply Expression.backward_error
  · exact (sweep_isSome valid given ok).mpr fed
  · intro a ha
    have he : e ∈ p.forwardOrder := by
      apply valid.backward_subset
      show e ∈ p.backwardOrder
      rw [split]
      exact List.mem_append_right before List.mem_cons_self
    have same : (Expression.backwardAll i before (p.given i g).state.2).state.ungraded =
        p.nodes.ungraded :=
      (Expression.backwardAll_ungraded _ _ _).trans (p.given_frame i g).2
    rw [Nodes.value?_of_ungraded same, (holds e he).argument ha]
    rfl

/-- With all equations in place no value is missing. -/
theorem backward_no_missing_value (n : NodeId) (j : Index) :
    (p.backward i g).result ≠ .error (.missingValue n j) := by
  intro h
  rcases backward_error_cases h with
    (⟨c, impossible⟩ | impossible) | ⟨before, e, after, split, given, ok, failed⟩
  · cases impossible
  · cases impossible
  · by_cases fed : p.Fed i before e.result
    · obtain ⟨c, impossible⟩ := rule_error_of_fed valid holds split given ok fed _ failed
      cases impossible
    · rw [← sweep_isSome valid given ok, Option.not_isSome_iff_eq_none] at fed
      rw [Expression.backward_missing fed] at failed
      cases failed

/-- With all equations in place a gradient is missing exactly when some expression that is reached
was not fed. -/
theorem supplied_iff :
    (∀ n j, (p.backward i g).result ≠ .error (.missingGradient n j)) ↔ p.Supplied i g := by
  constructor
  · intro found before e after split reached
    obtain ⟨given, ok⟩ := truncated_ok.mp reached
    by_contra unfed
    rw [← sweep_isSome valid given ok, Option.not_isSome_iff_eq_none] at unfed
    exact found e.result i ((backward_error_of_given given).mpr
      ⟨before, e, after, split, ok, Expression.backward_missing unfed⟩)
  · intro supplied n j h
    rcases backward_error_cases h with
      (⟨c, impossible⟩ | impossible) | ⟨before, e, after, split, given, ok, failed⟩
    · cases impossible
    · cases impossible
    · have fed := supplied before e after split (truncated_ok.mpr ⟨given, ok⟩)
      obtain ⟨c, impossible⟩ := rule_error_of_fed valid holds split given ok fed _ failed
      cases impossible

end Errors

/-- At an index that was computed, the replay back never lacks a value, and it never lacks a
gradient exactly when each expression that it reaches was fed. -/
theorem backward_supplied_iff {p q : Procedure α} (compiled : Session.Compiled p)
    (reaches : p.Reaches q) {i : Index} {x : Tensor α} {out : NodeId}
    (computed : (q.forward i x).result = .ok out) (g : Tensor α) :
    (∀ n j, ((q.forward i x).state.backward i g).result ≠ .error (.missingValue n j)) ∧
      ((∀ n j, ((q.forward i x).state.backward i g).result ≠ .error (.missingGradient n j)) ↔
        (q.forward i x).state.Supplied i g) := by
  have before : q.plan.Valid := by
    rw [reaches_plan reaches]
    exact compiled.plan_valid
  have after : (q.forward i x).state.plan.Valid := by
    rw [q.forward_plan]
    exact before
  have holds : ∀ e ∈ (q.forward i x).state.forwardOrder, e.Holds i (q.forward i x).state.nodes := by
    rw [q.forward_forwardOrder]
    exact forward_holds before computed
  constructor
  · exact backward_no_missing_value after holds
  · exact supplied_iff after holds

/-! ### A target that depends on the input -/

/-- Two builds of `c = x + w`, `y = f(x, c)` at `x = 1` and `w = 2`, the second not ended yet: the
target `c` depends on the input, and the rule of `f` hands it no gradient. -/
def targetSession : Session Int :=
  (Session.start "targets").run
    [.hold (.fill [1] 1), .hold (.fill [1] 2), .register [1],
      .begin 0, .compute (.arithmetic .add 0 1), .compute (.binary .meanSquaredError 0 2),
      .finish 3,
      .begin 0, .compute (.arithmetic .add 0 1), .compute (.binary .meanSquaredError 0 4)]

theorem target_missing_gradient :
    ∃ p : Procedure Int, Session.Compiled p ∧ (p.forward 0 (.fill [1] 1)).result = .ok 3 ∧
      ((p.forward 0 (.fill [1] 1)).state.backward 0 (.fill [1] 1)).result =
        .error (.missingGradient 2 0) := by
  refine ⟨_, ⟨targetSession, 5, ⟨"targets", _, rfl⟩, rfl⟩, ?_, ?_⟩
  · rfl
  · rfl

theorem target_not_supplied :
    ∃ p : Procedure Int, Session.Compiled p ∧ (p.forward 0 (.fill [1] 1)).result = .ok 3 ∧
      ¬ (p.forward 0 (.fill [1] 1)).state.Supplied 0 (.fill [1] 1) := by
  refine ⟨_, ⟨targetSession, 5, ⟨"targets", _, rfl⟩, rfl⟩, rfl, fun supplied => ?_⟩
  have found := (backward_supplied_iff ⟨targetSession, 5, ⟨"targets", _, rfl⟩, rfl⟩ ⟨[], rfl⟩ rfl
    (.fill [1] 1)).2.mpr supplied
  exact found 2 0 rfl

end Procedure

end GradientReplay
