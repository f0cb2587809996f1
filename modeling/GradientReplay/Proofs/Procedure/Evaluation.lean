import GradientReplay.Proofs.Procedure.Forward
import Mathlib.Logic.Function.Basic

/-!
Going forward as plain evaluation.

Without nodes and indices, expressions are evaluated one after the other on an assignment of tensors
to the numbers of nodes (`Expression.evalAll`). A replay forward does just that on the values that
are there before any expression is computed: it fails when the evaluation fails, with the same error,
and else leaves the values of the evaluation (`Expression.forwardAll_evalAll`). So what was stored in
a result before has no influence (`Expression.forwardAll_agree`).

What is there before is the input, the shared values of the constants, and what the links supply:
they read another index than they write, so they do not interfere (`Link.carryAll_supplied`).
-/

namespace GradientReplay

variable {α : Type}

/-! ### Evaluation -/

namespace Expression

variable [Zero α] [Add α] [Sub α] [Mul α] [Div α] [BEq α]

/-- Evaluate the expressions in order, each on the values so far. -/
def evalAll : List (Expression α) → (NodeId → Tensor α) → Except TensorError (NodeId → Tensor α)
  | [], values => .ok values
  | e :: es, values => do
      let v ← (e.term.map values).eval
      evalAll es (Function.update values e.result v)

theorem evalAll_cons_ok {e : Expression α} {es : List (Expression α)}
    {values values' : NodeId → Tensor α} (h : evalAll (e :: es) values = .ok values') :
    ∃ v, (e.term.map values).eval = .ok v ∧
      evalAll es (Function.update values e.result v) = .ok values' :=
  bind_ok_iff.mp h

/-- What no expression gives keeps its value. -/
theorem evalAll_of_not_result {es : List (Expression α)} {values values' : NodeId → Tensor α}
    (h : evalAll es values = .ok values') {n : NodeId} (free : ∀ e ∈ es, e.result ≠ n) :
    values' n = values n := by
  induction es generalizing values with
  | nil =>
      cases h
      rfl
  | cons e es ih =>
      obtain ⟨v, -, later⟩ := evalAll_cons_ok h
      rw [ih later fun e he => free e (List.mem_cons_of_mem _ he)]
      exact Function.update_of_ne (free e List.mem_cons_self).symm _ _

/-- Values that solve all equations are left as they are. -/
theorem evalAll_of_solved {es : List (Expression α)} {values : NodeId → Tensor α}
    (solved : ∀ e ∈ es, (e.term.map values).eval = .ok (values e.result)) :
    evalAll es values = .ok values := by
  induction es with
  | nil => rfl
  | cons e es ih =>
      unfold evalAll
      rw [solved e List.mem_cons_self]
      change evalAll es (Function.update values e.result (values e.result)) = _
      rw [Function.update_eq_self]
      exact ih fun e he => solved e (List.mem_cons_of_mem _ he)

/-- The value of an expression whose arguments have values is that of its term. -/
theorem evaluate_of_known {e : Expression α} {i : Index} {nodes : Nodes α}
    {values : NodeId → Tensor α}
    (known : ∀ a ∈ e.term.arguments, nodes.value? a i = some (values a)) :
    e.evaluate i nodes = ofTensor (e.term.map values).eval := by
  have traversed : e.term.traverse (nodes.readValue i) = .ok (e.term.map values) := by
    apply Term.traverse_ok
    intro a ha
    exact Nodes.readValue_ok.mpr (known a ha)
  unfold evaluate
  rw [traversed]
  rfl

/-- The values of the nodes that the expressions take from elsewhere. -/
def Known (es : List (Expression α)) (i : Index) (nodes : Nodes α) (values : NodeId → Tensor α) :
    Prop :=
  ∀ e ∈ es, ∀ a ∈ e.term.arguments, (∀ e' ∈ es, e'.result ≠ a) → nodes.value? a i = some (values a)

/-- The arguments of the first expression are taken from elsewhere. -/
theorem Known.evaluate {e : Expression α} {es : List (Expression α)} {i : Index} {nodes : Nodes α}
    {values : NodeId → Tensor α} (known : Known (e :: es) i nodes values)
    (ordered : Ordered (e :: es)) : e.evaluate i nodes = ofTensor (e.term.map values).eval := by
  apply evaluate_of_known
  intro a ha
  exact known e List.mem_cons_self a ha (ordered.free (ordered.arguments e List.mem_cons_self a ha))

omit [Zero α] [Add α] [Sub α] [Mul α] [Div α] [BEq α] in
/-- Once the first expression is computed, its result is known to the others. -/
theorem Known.setValue {e : Expression α} {es : List (Expression α)} {i : Index} {nodes : Nodes α}
    {values : NodeId → Tensor α} (known : Known (e :: es) i nodes values) {v : Tensor α}
    (now : (nodes.setValue e.result i v).value? e.result i = some v) :
    Known es i (nodes.setValue e.result i v) (Function.update values e.result v) := by
  intro e' he' a ha free
  by_cases same : a = e.result
  · rw [same, now, Function.update_self]
  · rw [Nodes.value?_setValue_of_ne nodes v (.inl same), Function.update_of_ne same]
    apply known e' (List.mem_cons_of_mem _ he') a ha
    intro e'' he''
    rcases List.mem_cons.mp he'' with rfl | he''
    · exact Ne.symm same
    · exact free e'' he''

/-- Going forward is evaluation: it fails when the evaluation fails, and else leaves its values in the
results. -/
theorem forwardAll_evalAll {es : List (Expression α)} {i : Index} {nodes : Nodes α}
    {values : NodeId → Tensor α} (ordered : Ordered es)
    (stores : ∀ e ∈ es, nodes.Stores e.result) (known : Known es i nodes values) :
    (forwardAll i es nodes).result = ofTensor ((evalAll es values).map fun _ => ()) ∧
      ∀ values', evalAll es values = .ok values' → ∀ e ∈ es,
        (forwardAll i es nodes).state.value? e.result i = some (values' e.result) := by
  induction es generalizing nodes values with
  | nil => exact ⟨rfl, fun values' _ e he => by cases he⟩
  | cons e es ih =>
      have here := known.evaluate ordered
      rw [forwardAll_cons]
      unfold forward evalAll
      rw [here]
      cases (e.term.map values).eval with
      | error cause =>
          refine ⟨rfl, fun values' h => ?_⟩
          cases h
      | ok v =>
          obtain ⟨c, hc, plain⟩ := stores e List.mem_cons_self
          have now : (nodes.setValue e.result i v).value? e.result i = some v :=
            Nodes.value?_setValue_self hc plain i v
          have stores' : ∀ e' ∈ es, (nodes.setValue e.result i v).Stores e'.result := fun e' he' =>
            (Nodes.stores_setValue _ _ _ _ _).mpr (stores e' (List.mem_cons_of_mem _ he'))
          obtain ⟨result, final⟩ := ih ordered.tail stores' (known.setValue now)
          refine ⟨result, fun values' h e' he' => ?_⟩
          change (forwardAll i es (nodes.setValue e.result i v)).state.value? e'.result i = _
          rcases List.mem_cons.mp he' with rfl | he'
          · -- The result is not written again.
            have free : ∀ e ∈ es, e.result ≠ e'.result := fun e he => ne_of_gt (ordered.later e he)
            rw [forwardAll_value? (.inl free), now, evalAll_of_not_result h free,
              Function.update_self]
          · exact final values' h e' he'

/-- Going forward depends on nothing that was stored in the results. -/
theorem forwardAll_agree {es : List (Expression α)} {i : Index} {nodes nodes' : Nodes α}
    (ordered : Ordered es) (stores : ∀ e ∈ es, nodes.Stores e.result)
    (stores' : ∀ e ∈ es, nodes'.Stores e.result)
    (same : ∀ n, (∀ e ∈ es, e.result ≠ n) → nodes'.value? n i = nodes.value? n i)
    (h : (forwardAll i es nodes).result = .ok ()) :
    (forwardAll i es nodes').result = .ok () ∧
      ∀ n, (forwardAll i es nodes').state.value? n i = (forwardAll i es nodes).state.value? n i := by
  have holds := forwardAll_holds ordered stores h
  let values := (forwardAll i es nodes).state.valueAt i
  have known : Known es i nodes values := by
    intro e he a ha free
    rw [← forwardAll_value? (.inl free)]
    exact (holds e he).argument ha
  have known' : Known es i nodes' values := by
    intro e he a ha free
    rw [same a free]
    exact known e he a ha free
  have solved : evalAll es values = .ok values := evalAll_of_solved fun e he => (holds e he).eval
  obtain ⟨result, final⟩ := forwardAll_evalAll ordered stores known
  obtain ⟨result', final'⟩ := forwardAll_evalAll ordered stores' known'
  refine ⟨?_, fun n => ?_⟩
  · rw [result', solved]
    rfl
  · by_cases given : ∃ e ∈ es, e.result = n
    · obtain ⟨e, he, rfl⟩ := given
      rw [final' values solved e he, final values solved e he]
    · have free : ∀ e ∈ es, e.result ≠ n := fun e he give => given ⟨e, he, give⟩
      rw [forwardAll_value? (.inl free), forwardAll_value? (.inl free), same n free]

end Expression

/-! ### What the links supply -/

/-- What is read at the index before is not changed by what is stored at the index. -/
theorem Nodes.previous_setValue (nodes : Nodes α) (m n : NodeId) (i : Index) (v : Tensor α) :
    i.previous?.bind ((nodes.setValue m i v).value? n) = i.previous?.bind (nodes.value? n) := by
  cases before : i.previous? with
  | none => rfl
  | some j => exact value?_setValue_of_ne nodes v (.inr (Index.previous?_ne before))

namespace Link

variable [Zero α]

/-- What a link hands to its consumer at an index. -/
def supplied (link : Link α) (i : Index) (nodes : Nodes α) : Tensor α :=
  supply (i.previous?.bind (nodes.value? link.producer)) link.lastValue
    (shapeOf nodes link.producer)

/-- The links read another index than the one they write. -/
theorem supplied_setValue (link : Link α) (i : Index) (nodes : Nodes α) (m : NodeId)
    (v : Tensor α) : link.supplied i (nodes.setValue m i v) = link.supplied i nodes := by
  have shape := Nodes.shapeOf_of_profiles
    (Nodes.profiles_of_unvalued (Nodes.unvalued_setValue nodes m i v)) link.producer
  rw [supplied, supplied, Nodes.previous_setValue, shape]

/-- Each consumer holds what its link supplied. -/
theorem carryAll_supplied {i : Index} {links : List (Link α)} {nodes : Nodes α}
    (distinct : (links.map (·.consumer)).Nodup)
    (stores : ∀ l ∈ links, nodes.Stores l.consumer) :
    ∀ l ∈ links, (carryAll i links nodes).2.value? l.consumer i = some (l.supplied i nodes) := by
  induction links generalizing nodes with
  | nil =>
      intro l hl
      cases hl
  | cons link links ih =>
      obtain ⟨apart, distinct⟩ := List.nodup_cons.mp distinct
      let nodes' := nodes.setValue link.consumer i (link.supplied i nodes)
      have stores' : ∀ l ∈ links, nodes'.Stores l.consumer := fun l hl =>
        (Nodes.stores_setValue _ _ _ _ _).mpr (stores l (List.mem_cons_of_mem _ hl))
      intro l hl
      change (carryAll i links nodes').2.value? l.consumer i = _
      rcases List.mem_cons.mp hl with rfl | hl
      · obtain ⟨c, hc, plain⟩ := stores l List.mem_cons_self
        have free : ∀ l' ∈ links, l'.consumer ≠ l.consumer := fun l' hl' same =>
          apart (List.mem_map.mpr ⟨l', hl', same⟩)
        rw [carryAll_value? (.inl free)]
        exact Nodes.value?_setValue_self hc plain i _
      · rw [ih distinct stores' l hl, supplied_setValue]

end Link

/-! ### Before any expression -/

namespace Procedure

variable {p : Procedure α}

theorem stores_consumer (valid : p.plan.Valid) {l : Link α} (hl : l ∈ p.links) :
    p.nodes.Stores l.consumer := by
  obtain ⟨c, hc, plain, -⟩ := consumer_carried valid hl
  exact Nodes.stores_iff.mpr ⟨c, hc, plain⟩

theorem consumers_distinct (valid : p.plan.Valid) : (p.links.map (·.consumer)).Nodup := by
  have distinct := valid.distinct
  simp only [plan, List.map_map] at distinct
  exact distinct

section Seeded

variable [Zero α] {i : Index} {x : Tensor α}

theorem seeded_input (valid : p.plan.Valid) : (p.seeded i x).value? p.input i = some x := by
  obtain ⟨c, hc, plain⟩ :=
    stores_of_computed (Link.carryAll_unvalued i p.links p.nodes) valid.input
  exact Nodes.value?_setValue_self hc plain i x

theorem seeded_consumer (valid : p.plan.Valid) {l : Link α} (hl : l ∈ p.links) :
    (p.seeded i x).value? l.consumer i = some (l.supplied i p.nodes) := by
  unfold seeded
  rw [Nodes.value?_setValue_of_ne _ x (.inl (consumer_ne_input valid hl))]
  exact Link.carryAll_supplied (consumers_distinct valid)
    (fun l hl => stores_consumer valid hl) l hl

/-- What is neither the input nor the consumer of a link holds what it held. -/
theorem seeded_other {n : NodeId} (input : n ≠ p.input) (free : ∀ l ∈ p.links, l.consumer ≠ n) :
    (p.seeded i x).value? n i = p.nodes.value? n i := by
  unfold seeded
  rw [Nodes.value?_setValue_of_ne _ x (.inl input), Link.carryAll_value? (.inl free)]

end Seeded

/-- A constant holds its shared value at every index. -/
theorem value?_of_constant [Zero α] {n : NodeId} (constant : p.plan.Constant n) (i : Index) :
    p.nodes.value? n i = some (p.nodes.referenceAt n) := by
  obtain ⟨profile, found, const⟩ := constant
  rw [plan_nodes_getElem?] at found
  obtain ⟨c, hc, rfl⟩ := Option.map_eq_some_iff.mp found
  rw [Nodes.value?_of_getElem? hc, Nodes.referenceAt_of_getElem? hc]
  exact Node.value?_of_constant const i

/-! ### Shapes -/

section Shapes

variable [Zero α] [Add α] [Sub α] [Mul α] [Div α] [BEq α] {i : Index} {x : Tensor α}

/-- After a replay forward the consumer of a link holds what the link supplied. -/
theorem forward_consumer (valid : p.plan.Valid) {l : Link α} (hl : l ∈ p.links) :
    (p.forward i x).state.nodes.value? l.consumer i = some (l.supplied i p.nodes) := by
  have free : ∀ e ∈ p.forwardOrder, e.result ≠ l.consumer := by
    intro e he same
    exact (valid.results e he).2.not_carried (same ▸ consumer_carried valid hl)
  rw [forward_state]
  exact (Expression.forwardAll_value? (.inl free)).trans (seeded_consumer valid hl)

/-- A replay forward of a procedure that was recorded by computing gives every node a value of its
shape, if the input and what the links supply have the shapes of their nodes. -/
theorem forward_fits (valid : p.plan.Valid) (shaped : p.plan.Shaped) (vacant : p.Vacant)
    {out : NodeId} (h : (p.forward i x).result = .ok out) (fits : x.shape = p.plan.shapeOf p.input)
    (supplied : ∀ l ∈ p.links, (l.supplied i p.nodes).shape = p.plan.shapeOf l.consumer) :
    (p.forward i x).state.nodes.Fits i := by
  have plan := p.forward_plan i x
  have holds := forward_holds valid h
  intro n
  induction n using Nat.strong_induction_on with
  | _ n ih =>
      intro v hv
      obtain ⟨c, hc, found⟩ := Option.bind_eq_some_iff.mp hv
      rw [← plan_shapeOf, plan]
      by_cases isInput : n = p.input
      · subst isInput
        rw [forward_input valid i x] at hv
        cases hv
        exact fits
      by_cases isResult : ∃ e ∈ p.forwardOrder, e.result = n
      · -- The shape follows from the shapes of the arguments, which come before.
        obtain ⟨e, he, rfl⟩ := isResult
        have value := Term.eval_shape (holds e he).eval
        rw [Nodes.valueAt_of_value? hv, Term.map_map] at value
        rw [value, shaped e he]
        refine congrArg Term.shape (Term.map_congr fun a ha => ?_)
        rw [ih a (valid.ordered.arguments e he a ha) _ ((holds e he).argument ha),
          ← plan_shapeOf, plan]
      by_cases isConsumer : ∃ l ∈ p.links, l.consumer = n
      · obtain ⟨l, hl, rfl⟩ := isConsumer
        rw [forward_consumer valid hl] at hv
        cases hv
        exact supplied l hl
      · have unwritten : ¬ p.plan.Written n := by
          rintro (same | linked | result)
          · exact isInput same
          · obtain ⟨ends, hends, same⟩ := List.mem_map.mp linked
            obtain ⟨l, hl, rfl⟩ := List.mem_map.mp hends
            exact isConsumer ⟨l, hl, same⟩
          · exact isResult result
        by_cases const : p.plan.Constant n
        · obtain ⟨c', hc', isConstant⟩ := const
          rw [← plan, plan_nodes_getElem?, hc] at hc'
          cases hc'
          rw [Node.value?_of_constant isConstant] at found
          cases found
          rw [← plan, plan_shapeOf, Nodes.shapeOf_of_getElem? hc]
          rfl
        · rw [forward_value?_of_not_written (.inl unwritten), vacant n unwritten const i] at hv
          cases hv

end Shapes

end Procedure

end GradientReplay
