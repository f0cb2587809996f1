import GradientReplay.Proofs.Procedure.Replay

/-!
Going forward.

A successful replay forward makes the equation of every expression hold at its index
(`forward_holds`), binds the input there (`forward_input`), and writes nothing but the input, the
results and the carried nodes that links feed (`forward_value?_of_not_written`). What is written
by none of these never holds a value (`reaches_vacant`).
-/

namespace GradientReplay

variable {α : Type}

/-! ### Equations -/

namespace Expression

variable [Zero α] [Add α] [Sub α] [Mul α] [Div α] [BEq α]

/-- The result of an expression holds the value of its term. -/
def Holds (e : Expression α) (i : Index) (nodes : Nodes α) : Prop :=
  ∃ v, e.evaluate i nodes = .ok v ∧ nodes.value? e.result i = some v

variable {e : Expression α} {i : Index} {nodes nodes' : Nodes α}

theorem evaluate_congr (same : ∀ a ∈ e.term.arguments, nodes'.value? a i = nodes.value? a i) :
    e.evaluate i nodes' = e.evaluate i nodes := by
  have read : e.term.traverse (nodes'.readValue i) = e.term.traverse (nodes.readValue i) := by
    apply Term.traverse_congr
    intro a ha
    exact Nodes.readValue_congr (same a ha)
  unfold evaluate
  rw [read]

/-- The arguments of an expression that has a value have values. -/
theorem value?_of_evaluate {v : Tensor α} (h : e.evaluate i nodes = .ok v) {a : NodeId}
    (ha : a ∈ e.term.arguments) : nodes.value? a i = some (nodes.valueAt i a) := by
  obtain ⟨u, traversed, -⟩ := bind_ok_iff.mp h
  obtain ⟨b, hb⟩ := (Term.traverse_ok_arguments traversed).1 a ha
  have found := Nodes.readValue_ok.mp hb
  rw [found, Nodes.valueAt_of_value? found]

theorem evaluate_ok {v : Tensor α} (h : e.evaluate i nodes = .ok v) :
    (e.term.map (nodes.valueAt i)).eval = .ok v := by
  have traversed : e.term.traverse (nodes.readValue i) = .ok (e.term.map (nodes.valueAt i)) := by
    apply Term.traverse_ok
    intro a ha
    exact Nodes.readValue_ok.mpr (value?_of_evaluate h ha)
  unfold evaluate at h
  rw [traversed] at h
  exact ofTensor_ok.mp h

/-- An equation is about the values of the arguments and of the result only. -/
theorem Holds.agree (h : e.Holds i nodes)
    (arguments : ∀ a ∈ e.term.arguments, nodes'.value? a i = nodes.value? a i)
    (result : nodes'.value? e.result i = nodes.value? e.result i) : e.Holds i nodes' := by
  obtain ⟨v, evaluated, stored⟩ := h
  refine ⟨v, ?_, ?_⟩
  · rw [evaluate_congr arguments, evaluated]
  · rw [result, stored]

theorem Holds.of_ungraded (h : e.Holds i nodes) (same : nodes'.ungraded = nodes.ungraded) :
    e.Holds i nodes' := by
  apply h.agree
  · intro a _
    exact Nodes.value?_of_ungraded same a i
  · exact Nodes.value?_of_ungraded same e.result i

theorem Holds.argument (h : e.Holds i nodes) {a : NodeId} (ha : a ∈ e.term.arguments) :
    nodes.value? a i = some (nodes.valueAt i a) := by
  obtain ⟨v, evaluated, -⟩ := h
  exact value?_of_evaluate evaluated ha

theorem Holds.stored (h : e.Holds i nodes) :
    nodes.value? e.result i = some (nodes.valueAt i e.result) := by
  obtain ⟨v, -, stored⟩ := h
  rw [Nodes.valueAt_of_value? stored, stored]

theorem Holds.eval (h : e.Holds i nodes) :
    (e.term.map (nodes.valueAt i)).eval = .ok (nodes.valueAt i e.result) := by
  obtain ⟨v, evaluated, stored⟩ := h
  rw [Nodes.valueAt_of_value? stored]
  exact evaluate_ok evaluated

/-! ### All expressions -/

theorem forwardAll_cons (i : Index) (e : Expression α) (es : List (Expression α))
    (nodes : Nodes α) :
    forwardAll i (e :: es) nodes =
      (Outcome.ofExcept nodes (e.forward i nodes)).andThen fun ns _ => forwardAll i es ns := rfl

/-- A value that no expression writes stays. -/
theorem forwardAll_value? {es : List (Expression α)} {n : NodeId} {j : Index}
    (apart : (∀ e ∈ es, e.result ≠ n) ∨ j ≠ i) :
    (forwardAll i es nodes).state.value? n j = nodes.value? n j := by
  apply forwardAll_preserves (P := fun ns : Nodes α => ns.value? n j = nodes.value? n j)
  · intro e he ns v h
    rw [Nodes.value?_setValue_of_ne, h]
    rcases apart with free | ne
    · exact .inl (free e he).symm
    · exact .inr ne
  · rfl

/-- When all expressions were computed in order, all equations hold. -/
theorem forwardAll_holds {es : List (Expression α)} (ordered : Ordered es)
    (stores : ∀ e ∈ es, nodes.Stores e.result) (h : (forwardAll i es nodes).result = .ok ()) :
    ∀ e ∈ es, e.Holds i (forwardAll i es nodes).state := by
  induction es generalizing nodes with
  | nil =>
      intro e he
      cases he
  | cons e es ih =>
      obtain ⟨⟨⟩, first, later⟩ := Outcome.andThen_ok.mp h
      obtain ⟨v, evaluated, written⟩ := forward_ok (Outcome.ofExcept_ok.mp first)
      have state : (forwardAll i (e :: es) nodes).state =
          (forwardAll i es (nodes.setValue e.result i v)).state := by
        rw [forwardAll_cons, Outcome.andThen_of_ok first, written]
      rw [written] at later
      rw [state]
      have stores' : ∀ e' ∈ es, (nodes.setValue e.result i v).Stores e'.result := fun e' he' =>
        (Nodes.stores_setValue _ _ _ _ _).mpr (stores e' (List.mem_cons_of_mem _ he'))
      intro e' he'
      rcases List.mem_cons.mp he' with rfl | he'
      · -- Neither the arguments nor the result are written again.
        obtain ⟨c, hc, plain⟩ := stores e' List.mem_cons_self
        have keep {n : NodeId} (le : n ≤ e'.result) :
            (forwardAll i es (nodes.setValue e'.result i v)).state.value? n i =
              (nodes.setValue e'.result i v).value? n i := by
          apply forwardAll_value?
          left
          intro e he same
          exact absurd (ordered.later e he) (not_lt.mpr (same ▸ le))
        refine ⟨v, ?_, ?_⟩
        · rw [evaluate_congr, evaluated]
          intro a ha
          have lt := ordered.arguments e' List.mem_cons_self a ha
          rw [keep (le_of_lt lt), Nodes.value?_setValue_of_ne nodes v (.inl (ne_of_lt lt))]
        · rw [keep (le_refl _)]
          exact Nodes.value?_setValue_self hc plain i v
      · exact ih ordered.tail stores' later e' he'

end Expression

/-! ### A replay forward -/

/-- The node is written when a procedure of this plan is replayed forward. -/
def Plan.Written (P : Plan α) (n : NodeId) : Prop :=
  n = P.input ∨ n ∈ P.links.map Prod.snd ∨ ∃ e ∈ P.forwardOrder, e.result = n

theorem Link.carryAll_value? [Zero α] {i : Index} {links : List (Link α)} {nodes : Nodes α}
    {n : NodeId} {j : Index} (apart : (∀ l ∈ links, l.consumer ≠ n) ∨ j ≠ i) :
    (carryAll i links nodes).2.value? n j = nodes.value? n j := by
  induction links generalizing nodes with
  | nil => rfl
  | cons link links ih =>
      have rest : (∀ l ∈ links, l.consumer ≠ n) ∨ j ≠ i :=
        apart.imp_left fun free l hl => free l (List.mem_cons_of_mem _ hl)
      have first : n ≠ link.consumer ∨ j ≠ i :=
        apart.imp_left fun free => (free link List.mem_cons_self).symm
      exact (ih rest).trans (Nodes.value?_setValue_of_ne nodes _ first)

namespace Procedure

theorem seeded_unvalued [Zero α] (p : Procedure α) (i : Index) (x : Tensor α) :
    (p.seeded i x).unvalued = p.nodes.unvalued :=
  (Nodes.unvalued_setValue _ _ i x).trans (Link.carryAll_unvalued i p.links p.nodes)

/-- A node that is computed holds what is stored in it, whatever was stored before. -/
theorem stores_of_computed {p : Procedure α} {nodes : Nodes α}
    (same : nodes.unvalued = p.nodes.unvalued) {n : NodeId} (h : p.plan.Computed n) :
    nodes.Stores n := by
  obtain ⟨c, hc, plain, -⟩ := h
  rw [Nodes.stores_iff, Nodes.profiles_of_unvalued same]
  exact ⟨c, hc, plain⟩

/-- The results hold what is stored in them. -/
theorem seeded_stores [Zero α] {p : Procedure α} (valid : p.plan.Valid) (i : Index)
    (x : Tensor α) : ∀ e ∈ p.forwardOrder, (p.seeded i x).Stores e.result := fun e he =>
  stores_of_computed (p.seeded_unvalued i x) (valid.results e he).2

section Forward

variable [Zero α] [Add α] [Sub α] [Mul α] [Div α] [BEq α] {p : Procedure α} {i j : Index}
  {x : Tensor α} {n : NodeId}

/-- A replay forward at an index writes nowhere else, and only what the plan says. -/
theorem forward_value?_of_not_written (apart : ¬ p.plan.Written n ∨ j ≠ i) :
    (p.forward i x).state.nodes.value? n j = p.nodes.value? n j := by
  have results : (∀ e ∈ p.forwardOrder, e.result ≠ n) ∨ j ≠ i :=
    apart.imp_left fun free e he same => free (.inr (.inr ⟨e, he, same⟩))
  have input : n ≠ p.input ∨ j ≠ i := apart.imp_left fun free same => free (.inl same)
  have consumers : (∀ l ∈ p.links, l.consumer ≠ n) ∨ j ≠ i := by
    refine apart.imp_left fun free l hl same => free (.inr (.inl ?_))
    exact List.mem_map.mpr ⟨l.ends, List.mem_map_of_mem hl, same⟩
  calc (p.forward i x).state.nodes.value? n j
      = (Expression.forwardAll i p.forwardOrder (p.seeded i x)).state.value? n j := by
        rw [forward_state]
    _ = (p.seeded i x).value? n j := Expression.forwardAll_value? results
    _ = (Link.carryAll i p.links p.nodes).2.value? n j := Nodes.value?_setValue_of_ne _ x input
    _ = p.nodes.value? n j := Link.carryAll_value? consumers

/-- A replay forward succeeds when all expressions do, and answers the output. -/
theorem forward_ok_iff {out : NodeId} :
    (p.forward i x).result = .ok out ↔
      (Expression.forwardAll i p.forwardOrder (p.seeded i x)).result = .ok () ∧
        p.output = out := by
  rw [forward_result]
  cases (Expression.forwardAll i p.forwardOrder (p.seeded i x)).result <;> simp [Except.map]

/-- After a successful replay forward the equation of every expression holds. -/
theorem forward_holds (valid : p.plan.Valid) {out : NodeId}
    (h : (p.forward i x).result = .ok out) :
    ∀ e ∈ p.forwardOrder, e.Holds i (p.forward i x).state.nodes := by
  rw [forward_state]
  exact Expression.forwardAll_holds valid.ordered (seeded_stores valid i x) (forward_ok_iff.mp h).1

/-- The input holds what was given. -/
theorem forward_input (valid : p.plan.Valid) (i : Index) (x : Tensor α) :
    (p.forward i x).state.nodes.value? p.input i = some x := by
  rw [forward_state]
  have kept : (Expression.forwardAll i p.forwardOrder (p.seeded i x)).state.value? p.input i =
      (p.seeded i x).value? p.input i := by
    apply Expression.forwardAll_value?
    exact .inl fun e he => (valid.results e he).1
  obtain ⟨c, hc, plain⟩ :=
    stores_of_computed (Link.carryAll_unvalued i p.links p.nodes) valid.input
  rw [kept]
  exact Nodes.value?_setValue_self hc plain i x

end Forward

/-! ### What is never written -/

section Shrinking

variable {p q : Procedure α}

/-- A state of the same procedure that has no value where the first one has none; constants apart. -/
structure Shrinks (p q : Procedure α) : Prop where
  plan : q.plan = p.plan
  values : ∀ n j, ¬ p.plan.Constant n → p.nodes.value? n j = none → q.nodes.value? n j = none

/-- A change of the nodes one by one, which takes values away but adds none. -/
theorem Shrinks.map {change : Node α → Node α} {links : List (Link α)}
    (plan : Procedure.plan { p with links, nodes := p.nodes.map change } = p.plan)
    (lose : ∀ n j, n.constant = false → n.value? j = none → (change n).value? j = none) :
    p.Shrinks { p with links, nodes := p.nodes.map change } := by
  refine ⟨plan, fun n j varies none => ?_⟩
  unfold Nodes.value? at none ⊢
  rw [List.getElem?_map]
  cases hn : p.nodes[n]? with
  | none => rfl
  | some c =>
      rw [hn] at none
      apply lose c j _ none
      cases const : c.constant with
      | false => rfl
      | true =>
          refine absurd ⟨c.profile, ?_, const⟩ varies
          rw [plan_nodes_getElem?, hn]
          rfl

theorem reset_shrinks (p : Procedure α) : p.Shrinks p.reset := by
  apply Shrinks.map p.reset_plan
  intro n j varies _
  simp [Node.reset, Node.value?, varies]

theorem resetIndex_shrinks (p : Procedure α) (i : Index) : p.Shrinks (p.resetIndex i) := by
  apply Shrinks.map (p.resetIndex_plan i)
  intro n j varies none
  simp only [Node.value?, varies, Bool.false_eq_true, if_false] at none
  simp [Node.resetIndex, Node.value?, varies, none]

theorem updateConstant_shrinks {x : Operand α} (h : p.updateConstant x = .ok q) : p.Shrinks q := by
  refine ⟨updateConstant_plan h, fun n j varies none => ?_⟩
  obtain ⟨node, c, found, const, -, rfl⟩ := updateConstant_ok h
  have ne : node ≠ n := by
    rintro rfl
    apply varies
    refine ⟨c.profile, ?_, const⟩
    rw [plan_nodes_getElem?, found]
    rfl
  unfold Nodes.value? at none ⊢
  rw [List.getElem?_set_ne ne, none]

theorem setStopped_shrinks {tensor : TensorId} {stopped : Bool}
    (h : p.setStopped tensor stopped = .ok q) : p.Shrinks q := by
  refine ⟨setStopped_plan h, fun n j _ none => ?_⟩
  obtain ⟨node, rfl⟩ := setStopped_ok h
  have same : (p.nodes.modify node (·.setStopped stopped)).map (·.value? j) =
      p.nodes.map (·.value? j) := by
    apply Nodes.map_modify
    intro c
    rfl
  have found := Nodes.getElem?_map_of_eq same n
  unfold Nodes.value? at none ⊢
  cases hq : (p.nodes.modify node (·.setStopped stopped))[n]? <;>
    cases hp : p.nodes[n]? <;> simp_all

/-- A node that no replay forward writes and that is no constant holds no value. -/
def Vacant (p : Procedure α) : Prop :=
  ∀ n, ¬ p.plan.Written n → ¬ p.plan.Constant n → ∀ j, p.nodes.value? n j = none

/-- A procedure stays vacant when its plan stays and what is not written gains no value. -/
theorem Vacant.mono (vacant : p.Vacant) (plan : q.plan = p.plan)
    (keep : ∀ n j, ¬ p.plan.Written n → ¬ p.plan.Constant n → p.nodes.value? n j = none →
      q.nodes.value? n j = none) : q.Vacant := by
  intro n free varies j
  rw [plan] at free varies
  exact keep n j free varies (vacant n free varies j)

end Shrinking

section Replay

variable [Zero α] [Add α] [Sub α] [Mul α] [Div α] [Neg α] [BEq α] {p q : Procedure α}

theorem backward_shrinks (p : Procedure α) (i : Index) (g : Tensor α) :
    p.Shrinks (p.backward i g).state := by
  refine ⟨p.backward_plan i g, fun n j _ none => ?_⟩
  rw [Nodes.value?_of_ungraded (p.backward_ungraded i g), none]

/-- What replays forward keep and what a loss of values does not break, all replays keep. -/
theorem replay_preserves {P : Procedure α → Prop}
    (forward : ∀ p i x, P p → P (p.forward i x).state)
    (shrink : ∀ p q : Procedure α, p.Shrinks q → P p → P q) (h : P p) (r : Replay α) :
    P (p.replay r) := by
  cases r with
  | forward i x => exact forward p i x h
  | backward i g => exact shrink _ _ (p.backward_shrinks i g) h
  | forwardSeries inputs => exact forwardSeries_preserves forward h inputs
  | backwardSeries gradients steps =>
      apply backwardSeries_preserves _ h
      intro q i g h
      exact shrink _ _ (q.backward_shrinks i g) h
  | reset => exact shrink _ _ p.reset_shrinks h
  | resetIndex i => exact shrink _ _ (p.resetIndex_shrinks i) h
  | resetLinks => exact shrink _ _ ⟨p.resetLinks_plan, fun _ _ _ none => none⟩ h
  | updateConstant x =>
      apply Outcome.ofExcept_preserves h
      intro q updated
      exact shrink _ _ (updateConstant_shrinks updated) h
  | setStopped tensor stopped =>
      apply Outcome.ofExcept_preserves h
      intro q updated
      exact shrink _ _ (setStopped_shrinks updated) h

omit [Neg α] in
theorem forward_vacant (vacant : p.Vacant) (i : Index) (x : Tensor α) :
    (p.forward i x).state.Vacant := by
  apply vacant.mono (p.forward_plan i x)
  intro n j free _ none
  rw [forward_value?_of_not_written (.inl free), none]

theorem replay_vacant (vacant : p.Vacant) (r : Replay α) : (p.replay r).Vacant := by
  apply replay_preserves (P := Vacant) _ _ vacant
  · intro q i x h
    exact forward_vacant h i x
  · intro q q' shrinks h
    exact h.mono shrinks.plan fun n j _ varies none => shrinks.values n j varies none

/-- What no replay forward writes never holds a value, unless it is a constant. -/
theorem reaches_vacant (vacant : p.Vacant) (reaches : p.Reaches q) : q.Vacant :=
  reaches.preserves (P := Vacant) (fun _ r h => replay_vacant h r) vacant

end Replay

end Procedure

section Compiled

variable [Zero α] [Add α] [Sub α] [Mul α] [Div α] [BEq α] {p : Procedure α}

/-- A compiled procedure holds no values yet, but for the shared ones of the constants. -/
theorem Session.Compiled.value?_eq_none (compiled : Session.Compiled p) {n : NodeId}
    (varies : ¬ p.plan.Constant n) (j : Index) : p.nodes.value? n j = none := by
  unfold Nodes.value?
  cases hn : p.nodes[n]? with
  | none => rfl
  | some c =>
      cases const : c.constant with
      | true =>
          refine absurd ⟨c.profile, ?_, const⟩ varies
          rw [Procedure.plan_nodes_getElem?, hn]
          rfl
      | false =>
          obtain ⟨empty, -⟩ := compiled.blank c (List.mem_of_getElem? hn)
          simp [Node.value?, const, empty]

theorem Session.Compiled.vacant (compiled : Session.Compiled p) : p.Vacant :=
  fun _ _ varies j => compiled.value?_eq_none varies j

end Compiled

end GradientReplay
