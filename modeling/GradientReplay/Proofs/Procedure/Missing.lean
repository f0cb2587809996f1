import GradientReplay.Proofs.Procedure.Backward
import GradientReplay.Proofs.Procedure.Recurrence
import GradientReplay.Proofs.Recorder.Links

/-!
Values that are missing.

Whether a replay forward can lack a value is told by the plan, not by the history: what is missing
is always the value of a node that was carried over and that no link feeds (`Plan.Unfed`,
`Procedure.forward_error`). Such a node never holds a value, nor does anything that depends on it
(`Procedure.reaches_dry`), and it is an argument of some expression (`Session.Compiled.carried_used`).
So a procedure either never lacks a value going forward, or never succeeds
(`Procedure.forward_missing`).
-/

namespace GradientReplay

variable {α : Type}

/-- If a term was not replaced, one of its arguments was not. -/
theorem Term.traverse_error {ν μ ε : Type} {g : ν → Except ε μ} {t : Term α ν} {cause : ε}
    (h : t.traverse g = .error cause) : ∃ a ∈ t.arguments, g a = .error cause := by
  cases t with
  | unary f x =>
      rcases bind_error_iff.mp h with hx | ⟨x', -, h⟩
      · exact ⟨x, List.mem_cons_self, hx⟩
      · cases h
  | binary f x c =>
      rcases bind_error_iff.mp h with hx | ⟨x', -, h⟩
      · exact ⟨x, List.mem_cons_self, hx⟩
      · rcases bind_error_iff.mp h with hc | ⟨c', -, h⟩
        · exact ⟨c, List.mem_cons_of_mem x List.mem_cons_self, hc⟩
        · cases h
  | arithmetic operation x y =>
      rcases bind_error_iff.mp h with hx | ⟨x', -, h⟩
      · exact ⟨x, List.mem_cons_self, hx⟩
      · rcases bind_error_iff.mp h with hy | ⟨y', -, h⟩
        · exact ⟨y, List.mem_cons_of_mem x List.mem_cons_self, hy⟩
        · cases h

/-- What depends on a node is the node itself, or the result of an expression with an argument that
depends on it. -/
theorem DependsOn.first {es : List (Expression α)} {m n : NodeId} (h : DependsOn es m n) :
    m = n ∨ ∃ e ∈ es, e.result = m ∧ ∃ a ∈ e.term.arguments, DependsOn es a n := by
  induction h with
  | self => exact .inl rfl
  | argument _ he ha ih =>
      rcases ih with rfl | ⟨e', he', result, b, hb, further⟩
      · exact .inr ⟨_, he, rfl, _, ha, .self _⟩
      · exact .inr ⟨e', he', result, b, hb, .argument further he ha⟩

/-- The node was carried over and no link feeds it. -/
def Plan.Unfed (P : Plan α) (n : NodeId) : Prop := P.Carried n ∧ n ∉ P.links.map Prod.snd

/-! ### How going forward fails -/

namespace Expression

variable [Zero α] [Add α] [Sub α] [Mul α] [Div α] [BEq α] {i : Index} {nodes : Nodes α}

/-- An expression fails for want of the value of an argument, or as an operation on tensors. -/
theorem evaluate_error {e : Expression α} {cause : ReplayError}
    (h : e.evaluate i nodes = .error cause) :
    (∃ c, cause = .tensor c) ∨
      ∃ a ∈ e.term.arguments, nodes.value? a i = none ∧ cause = .missingValue a i := by
  rcases bind_error_iff.mp h with unread | ⟨term, -, failed⟩
  · obtain ⟨a, ha, unread⟩ := Term.traverse_error unread
    unfold Nodes.readValue at unread
    split at unread
    · cases unread
    · rename_i missing
      cases unread
      exact .inr ⟨a, ha, missing, rfl⟩
  · exact .inl (onlyTensorErrors_ofTensor term.eval cause failed)

/-- Going forward lacks only values that were missing at the start, of arguments that no expression
gives. -/
theorem forwardAll_error {es : List (Expression α)} (ordered : Ordered es)
    (stores : ∀ e ∈ es, nodes.Stores e.result) {cause : ReplayError}
    (h : (forwardAll i es nodes).result = .error cause) :
    (∃ c, cause = .tensor c) ∨
      ∃ e ∈ es, ∃ a ∈ e.term.arguments, (∀ e' ∈ es, e'.result ≠ a) ∧ nodes.value? a i = none ∧
        cause = .missingValue a i := by
  induction es generalizing nodes with
  | nil => cases h
  | cons e es ih =>
      rw [forwardAll_cons] at h
      cases evaluated : e.evaluate i nodes with
      | error cause' =>
          have failed : e.forward i nodes = .error cause' := bind_error_iff.mpr (.inl evaluated)
          rw [failed] at h
          cases h
          rcases evaluate_error evaluated with tensor | ⟨a, ha, missing, eq⟩
          · exact .inl tensor
          · have before := ordered.arguments e List.mem_cons_self a ha
            exact .inr ⟨e, List.mem_cons_self, a, ha, ordered.free before, missing, eq⟩
      | ok v =>
          have written : e.forward i nodes = .ok (nodes.setValue e.result i v) :=
            bind_ok_iff.mpr ⟨v, evaluated, rfl⟩
          rw [written] at h
          have stores' : ∀ e' ∈ es, (nodes.setValue e.result i v).Stores e'.result := fun e' he' =>
            (Nodes.stores_setValue _ _ _ _ _).mpr (stores e' (List.mem_cons_of_mem _ he'))
          rcases ih ordered.tail stores' h with tensor | ⟨e', he', a, ha, free, missing, eq⟩
          · exact .inl tensor
          · -- The result of the first expression is there by now.
            have ne : a ≠ e.result := by
              rintro rfl
              obtain ⟨c, hc, plain⟩ := stores e List.mem_cons_self
              rw [Nodes.value?_setValue_self hc plain] at missing
              cases missing
            rw [Nodes.value?_setValue_of_ne nodes v (.inl ne)] at missing
            refine .inr ⟨e', List.mem_cons_of_mem _ he', a, ha, fun e'' he'' => ?_, missing, eq⟩
            rcases List.mem_cons.mp he'' with rfl | he''
            · exact ne.symm
            · exact free e'' he''

end Expression

namespace Procedure

section Forward

variable [Zero α] {p : Procedure α} {i : Index} {x : Tensor α}

/-- Before any expression is computed, what is no result and not unfed holds a value. -/
theorem seeded_isSome (valid : p.plan.Valid) {n : NodeId} (inside : n < p.plan.nodes.length)
    (free : ∀ e ∈ p.forwardOrder, e.result ≠ n) (fed : ¬ p.plan.Unfed n) :
    ((p.seeded i x).value? n i).isSome := by
  by_cases isInput : n = p.input
  · rw [isInput, seeded_input valid]
    rfl
  rcases valid.leaves n inside isInput free with constant | carried
  · have apart : ∀ l ∈ p.links, l.consumer ≠ n := by
      rintro l hl rfl
      exact (consumer_carried valid hl).not_constant constant
    rw [seeded_other isInput apart, value?_of_constant constant]
    rfl
  · have linked : n ∈ p.plan.links.map Prod.snd := by
      by_contra unlinked
      exact fed ⟨carried, unlinked⟩
    obtain ⟨ends, mem, rfl⟩ := List.mem_map.mp linked
    obtain ⟨l, hl, rfl⟩ := List.mem_map.mp mem
    have found : (p.seeded i x).value? l.consumer i = _ := seeded_consumer valid hl
    exact Option.isSome_of_eq_some found

variable [Add α] [Sub α] [Mul α] [Div α] [BEq α]

/-- A replay forward fails as an operation on tensors, or for want of the value of a node that was
carried over and that no link feeds. -/
theorem forward_error (valid : p.plan.Valid) {cause : ReplayError}
    (h : (p.forward i x).result = .error cause) :
    (∃ c, cause = .tensor c) ∨ ∃ n, p.plan.Unfed n ∧ cause = .missingValue n i := by
  have failed : (Expression.forwardAll i p.forwardOrder (p.seeded i x)).result = .error cause := by
    rw [forward_result] at h
    cases run : (Expression.forwardAll i p.forwardOrder (p.seeded i x)).result with
    | ok b =>
        rw [run] at h
        cases h
    | error e =>
        rw [run] at h
        cases h
        rfl
  have ordered : Ordered p.forwardOrder := valid.ordered
  rcases Expression.forwardAll_error ordered (seeded_stores valid i x) failed with
    tensor | ⟨e, he, a, ha, free, missing, eq⟩
  · exact .inl tensor
  · refine .inr ⟨a, ?_, eq⟩
    by_contra fed
    have inside : a < p.plan.nodes.length :=
      lt_trans (valid.ordered.arguments e he a ha) (valid.result_lt he)
    have found := seeded_isSome (i := i) (x := x) valid inside free fed
    rw [missing] at found
    cases found

end Forward

/-! ### What depends on an unfed node -/

/-- Nothing that depends on the node, itself included, holds a value. -/
def Dry (es : List (Expression α)) (n : NodeId) (nodes : Nodes α) : Prop :=
  ∀ m, DependsOn es m n → ∀ j, nodes.value? m j = none

theorem Dry.setValue {es : List (Expression α)} {n m : NodeId} {nodes : Nodes α}
    (dry : Dry es n nodes) (apart : ¬ DependsOn es m n) (i : Index) (v : Tensor α) :
    Dry es n (nodes.setValue m i v) := by
  intro k depends j
  have ne : k ≠ m := by
    rintro rfl
    exact apart depends
  rw [Nodes.value?_setValue_of_ne nodes v (.inl ne), dry k depends]

section Replay

variable [Zero α] [Add α] [Sub α] [Mul α] [Div α] [BEq α] {p q : Procedure α} {n : NodeId}

/-- Going forward computes nothing that depends on a node that no expression gives and that holds no
value. -/
theorem forwardAll_dry {es : List (Expression α)} (ordered : Ordered es)
    (free : ∀ e ∈ es, e.result ≠ n) {nodes : Nodes α} (dry : Dry es n nodes) (i : Index) :
    Dry es n (Expression.forwardAll i es nodes).state := by
  apply Outcome.each_preserves (P := Dry es n) _ dry
  intro ns e he dry
  apply Outcome.ofExcept_preserves dry
  intro ns' forwarded
  obtain ⟨v, evaluated, rfl⟩ := Expression.forward_ok forwarded
  refine dry.setValue (fun depends => ?_) i v
  -- If the result depended on the node, an argument would, and would have no value.
  rcases depends.first with same | ⟨e', he', result, a, ha, further⟩
  · exact free e he same
  · cases ordered.eq_of_result_eq he' he result
    have found := Expression.value?_of_evaluate evaluated ha
    rw [dry a further] at found
    cases found

omit [Zero α] [Add α] [Sub α] [Mul α] [Div α] [BEq α] in
/-- What depends on another node is a result. -/
theorem depends_cases (valid : p.plan.Valid) {m : NodeId}
    (depends : DependsOn p.forwardOrder m n) : m = n ∨ p.plan.Computed m ∧ m ≠ p.input := by
  rcases depends.first with same | ⟨e, he, rfl, -⟩
  · exact .inl same
  · obtain ⟨ne, computed⟩ := valid.results e he
    exact .inr ⟨computed, ne⟩

variable (valid : p.plan.Valid) (unfed : p.plan.Unfed n)

include valid unfed

theorem forward_dry (dry : Dry p.forwardOrder n p.nodes) (i : Index) (x : Tensor α) :
    Dry p.forwardOrder n (p.forward i x).state.nodes := by
  have ordered : Ordered p.forwardOrder := valid.ordered
  have consumers : ∀ l ∈ p.links, ¬ DependsOn p.forwardOrder l.consumer n := by
    intro l hl depends
    rcases depends_cases valid depends with same | ⟨computed, -⟩
    · exact unfed.2 (same ▸ List.mem_map_of_mem (List.mem_map_of_mem hl))
    · exact computed.not_carried (consumer_carried valid hl)
  have input : ¬ DependsOn p.forwardOrder p.input n := by
    intro depends
    rcases depends_cases valid depends with same | ⟨-, ne⟩
    · have carried := unfed.1
      rw [← same] at carried
      exact valid.input.not_carried carried
    · exact ne rfl
  have free : ∀ e ∈ p.forwardOrder, e.result ≠ n := by
    rintro e he rfl
    exact (valid.results e he).2.not_carried unfed.1
  rw [forward_state]
  apply forwardAll_dry ordered free
  apply Dry.setValue _ input
  exact Link.carryAll_preserves (fun l hl ns v dry => dry.setValue (consumers l hl) i v) dry

/-- What depends on an unfed node never holds a value. -/
theorem reaches_dry [Neg α] (dry : Dry p.forwardOrder n p.nodes) (reaches : p.Reaches q) :
    Dry p.forwardOrder n q.nodes := by
  have kept : q.plan = p.plan ∧ Dry p.forwardOrder n q.nodes := by
    apply reaches.preserves
      (P := fun q : Procedure α => q.plan = p.plan ∧ Dry p.forwardOrder n q.nodes) _ ⟨rfl, dry⟩
    intro q r h
    apply replay_preserves
      (P := fun q : Procedure α => q.plan = p.plan ∧ Dry p.forwardOrder n q.nodes) _ _ h
    · rintro q i x ⟨plan, dry⟩
      have order : q.forwardOrder = p.forwardOrder := congrArg Plan.forwardOrder plan
      refine ⟨(q.forward_plan i x).trans plan, ?_⟩
      rw [← order] at dry ⊢
      exact forward_dry (plan ▸ valid) (plan ▸ unfed) dry i x
    · rintro q q' shrinks ⟨plan, dry⟩
      refine ⟨shrinks.plan.trans plan, fun m depends j => ?_⟩
      apply shrinks.values m j _ (dry m depends j)
      rw [plan]
      rcases depends_cases valid depends with rfl | ⟨computed, -⟩
      · exact unfed.1.not_constant
      · exact computed.not_constant
  exact kept.2

end Replay

end Procedure

section Compiled

variable [Zero α] [Add α] [Sub α] [Mul α] [Div α] [BEq α] {p q : Procedure α} {n : NodeId}

/-- A node that was carried over is an argument of some expression. -/
theorem Session.Compiled.carried_used (compiled : Session.Compiled p) (carried : p.plan.Carried n) :
    ∃ e ∈ p.forwardOrder, n ∈ e.term.arguments := by
  obtain ⟨s, output, reached, finished⟩ := compiled
  obtain ⟨recording, node, previous, current, -, -, rfl⟩ := Recorder.finish_ok finished
  obtain ⟨profile, found, -, isCarried⟩ := carried
  rw [Procedure.plan_nodes_getElem?] at found
  obtain ⟨c, hc, rfl⟩ := Option.map_eq_some_iff.mp found
  exact reached_used reached current n c hc isCarried

theorem Session.Compiled.dry (compiled : Session.Compiled p) (unfed : p.plan.Unfed n) :
    Procedure.Dry p.forwardOrder n p.nodes := by
  intro m depends j
  apply compiled.value?_eq_none
  rcases Procedure.depends_cases compiled.plan_valid depends with rfl | ⟨computed, -⟩
  · exact unfed.1.not_constant
  · exact computed.not_constant

variable [Neg α]

/-- If each carried node is fed by a link, a replay forward fails only as an operation on tensors. In
any case it lacks no value but that of a node that was carried over and is not fed, at its own index.
If there is such a node, no replay forward succeeds in any state, and neither this node nor what
depends on it holds a value at any index. -/
theorem Procedure.forward_missing (compiled : Session.Compiled p) (reaches : p.Reaches q) (i : Index)
    (x : Tensor α) :
    (p.plan.Linked → OnlyTensorErrors (q.forward i x).result) ∧
      (∀ n j, (q.forward i x).result = .error (.missingValue n j) → p.plan.Unfed n ∧ j = i) ∧
      ∀ n, p.plan.Unfed n → (∀ out, (q.forward i x).result ≠ .ok out) ∧
        ∀ m, DependsOn p.forwardOrder m n → ∀ j, q.nodes.value? m j = none := by
  have plan := reaches_plan reaches
  have valid : q.plan.Valid := plan ▸ compiled.plan_valid
  have order : q.forwardOrder = p.forwardOrder := congrArg Plan.forwardOrder plan
  refine ⟨fun linked cause failed => ?_, fun n j failed => ?_, fun n unfed => ⟨fun out ok => ?_, ?_⟩⟩
  · rcases forward_error valid failed with tensor | ⟨n, ⟨carried, unlinked⟩, -⟩
    · exact tensor
    · rw [plan] at carried unlinked
      exact absurd (linked n carried) unlinked
  · rcases forward_error valid failed with ⟨c, tensor⟩ | ⟨m, unfed, eq⟩
    · cases tensor
    · cases eq
      exact ⟨plan ▸ unfed, rfl⟩
  · -- The node is an argument of an expression that would have been computed.
    obtain ⟨e, he, uses⟩ := compiled.carried_used unfed.1
    have dry := reaches_dry compiled.plan_valid unfed (compiled.dry unfed) reaches
    rw [← order] at he dry
    have after := forward_dry valid (plan ▸ unfed) dry i x
    have found := (forward_holds valid ok e he).argument uses
    rw [after n (.self n)] at found
    cases found
  · exact reaches_dry compiled.plan_valid unfed (compiled.dry unfed) reaches

end Compiled

/-- A build of `y = s + x`, and one of `u = x * x`, `t = y + u`, `z = t + x` with the old `y`, which
is not ended yet. -/
def grownSession : Session Int :=
  (Session.start "grown").run
    [.hold (.fill [1] 3), .hold (.fill [1] 0),
      .begin 0, .compute (.arithmetic .add 1 0), .finish 2,
      .begin 0, .compute (.arithmetic .multiply 0 0), .compute (.arithmetic .add 2 3),
      .compute (.arithmetic .add 4 0)]

/-- What these builds compile to. -/
def grownProcedure : Procedure Int where
  name := "grown"
  forwardOrder := [⟨0, .arithmetic .multiply 0 0, 1⟩, ⟨1, .arithmetic .add 2 1, 3⟩,
    ⟨2, .arithmetic .add 3 0, 4⟩]
  backwardOrder := [⟨2, .arithmetic .add 3 0, 4⟩, ⟨1, .arithmetic .add 2 1, 3⟩,
    ⟨0, .arithmetic .multiply 0 0, 1⟩]
  input := 0
  output := 4
  links := []
  nodes :=
    [.create 0 (.fill [1] 3) false 1 (.leaf 0), .create 1 (.fill [1] 9) false 1 (.result 0),
      .create 2 (.fill [1] 3) false 0 (.carried 0), .create 3 (.fill [1] 12) false 1 (.result 1),
      .create 4 (.fill [1] 15) false 1 (.result 2)]
  bound := [(5, 4), (0, 0)]

/-- The second build has more expressions than the first, so nothing feeds the old `y`: its value is
missing at every index, and so is `z`, while `u` is computed. The sums of `pairProcedure` are all fed,
so it fails only on the shape of its input. -/
theorem grown_missing :
    (∃ q, Session.Compiled grownProcedure ∧ grownProcedure.Reaches q ∧
      grownProcedure.plan.Unfed 2 ∧ q.nodes.value? 1 0 = some (.fill [1] 4) ∧
      (q.forward 1 (.fill [1] 5)).result = .error (.missingValue 2 1) ∧
      (∀ out, (q.forward 1 (.fill [1] 5)).result ≠ .ok out) ∧
      DependsOn grownProcedure.forwardOrder 4 2 ∧ q.nodes.value? 4 0 = none) ∧
    ∃ q, Session.Compiled Procedure.pairProcedure ∧ Procedure.pairProcedure.Reaches q ∧
      Procedure.pairProcedure.plan.Linked ∧ OnlyTensorErrors (q.forward 1 (.fill [3] 1)).result ∧
      ∀ out, (q.forward 1 (.fill [3] 1)).result ≠ .ok out := by
  constructor
  · have compiled : Session.Compiled grownProcedure := ⟨grownSession, 5, ⟨"grown", _, rfl⟩, rfl⟩
    have reaches : grownProcedure.Reaches (grownProcedure.forward 0 (.fill [1] 2)).state :=
      ⟨[.forward 0 (.fill [1] 2)], rfl⟩
    have unfed : grownProcedure.plan.Unfed 2 := ⟨⟨_, rfl, rfl, rfl⟩, List.not_mem_nil⟩
    have depends : DependsOn grownProcedure.forwardOrder 4 2 := by
      refine .argument (e := ⟨1, .arithmetic .add 2 1, 3⟩) ?_ (.tail _ (.head _)) (.head _)
      exact .argument (e := ⟨2, .arithmetic .add 3 0, 4⟩) (.self 4) (.tail _ (.tail _ (.head _)))
        (.head _)
    obtain ⟨-, -, missing⟩ := Procedure.forward_missing compiled reaches 1 (.fill [1] 5)
    obtain ⟨fails, dry⟩ := missing 2 unfed
    exact ⟨_, compiled, reaches, unfed, rfl, rfl, fails, depends, dry 4 depends 0⟩
  · have reaches : Procedure.pairProcedure.Reaches
        (Procedure.pairProcedure.forward 0 (.fill [2] 1)).state := ⟨[.forward 0 (.fill [2] 1)], rfl⟩
    obtain ⟨only, -⟩ := Procedure.forward_missing Procedure.pair_compiled reaches 1 (.fill [3] 1)
    refine ⟨_, Procedure.pair_compiled, reaches, Procedure.pair_linked,
      only Procedure.pair_linked, ?_⟩
    rintro out ⟨⟩

end GradientReplay
