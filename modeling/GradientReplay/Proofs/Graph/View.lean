import GradientReplay.Graph.Link
import Mathlib.Data.List.Basic

/-!
What each write to the nodes of a build changes and what it leaves.

A value is stored in one node at one index, and so is a gradient: a forward write leaves the nodes
as they are but for their values (`unvalued`), a backward one but for their gradients
(`ungraded`), and both leave what a compiled build fixes, the `profiles`. The look-ups `value?` and
`gradient?` change only where the write went.
-/

namespace GradientReplay

/-! ### What a build fixes -/

namespace Node

variable {α : Type}

/-- What is fixed of a node when its build is compiled. -/
structure Profile where
  id : NodeId
  shape : Shape
  constant : Bool
  build : Nat
  origin : Origin ExpressionId
  deriving DecidableEq, Repr

def profile (n : Node α) : Profile := ⟨n.id, n.shape, n.constant, n.build, n.origin⟩

/-- The node without its values. -/
def unvalue (n : Node α) : Node α := { n with values := .empty }

/-- The node without its gradients. -/
def ungrade (n : Node α) : Node α := { n with gradients := .empty }

theorem unvalue_setValue (n : Node α) (i : Index) (v : Tensor α) :
    (n.setValue i v).unvalue = n.unvalue := by
  unfold setValue
  split <;> rfl

theorem ungrade_setGradient (n : Node α) (i : Index) (g : Tensor α) :
    (n.setGradient i g).ungrade = n.ungrade := rfl

theorem value?_of_constant {n : Node α} (h : n.constant = true) (i : Index) :
    n.value? i = some n.reference := if_pos h

theorem value?_setValue {n : Node α} (h : n.constant = false) (i j : Index) (v : Tensor α) :
    (n.setValue i v).value? j = if j = i then some v else n.value? j := by
  simp [setValue, value?, h]

theorem gradient?_setGradient (n : Node α) (i j : Index) (g : Tensor α) :
    (n.setGradient i g).gradient? j = if j = i then some g else n.gradient? j :=
  Series.get?_insert n.gradients i j g

end Node

namespace Nodes

variable {α : Type}

/-- What is fixed of the nodes of a compiled build. -/
def profiles (nodes : Nodes α) : List Node.Profile := nodes.map Node.profile

/-- The nodes without their values. -/
def unvalued (nodes : Nodes α) : Nodes α := nodes.map Node.unvalue

/-- The nodes without their gradients. -/
def ungraded (nodes : Nodes α) : Nodes α := nodes.map Node.ungrade

/-- No node is stopped. -/
def Open (nodes : Nodes α) : Prop := ∀ n ∈ nodes, n.stopped = false

/-- The node holds what is stored in it: it is no constant. -/
def Stores (nodes : Nodes α) (m : NodeId) : Prop :=
  ∃ n, nodes[m]? = some n ∧ n.constant = false

/-- The value of a node at an index; a number without axes where there is none. -/
def valueAt [Zero α] (nodes : Nodes α) (i : Index) (m : NodeId) : Tensor α :=
  (nodes.value? m i).getD (.zeros [])

/-- The tensor that a node was made for: of a constant, the shared value. -/
def referenceAt [Zero α] (nodes : Nodes α) (m : NodeId) : Tensor α :=
  (nodes[m]?.map (·.reference)).getD (.zeros [])

/-- The values at an index have the shapes of their nodes. -/
def Fits (nodes : Nodes α) (i : Index) : Prop :=
  ∀ m v, nodes.value? m i = some v → v.shape = Link.shapeOf nodes m

/-- The node takes contributions to its gradients. -/
def Takes (nodes : Nodes α) (m : NodeId) : Prop :=
  ∃ n, nodes[m]? = some n ∧ n.stopped = false

/-! ### Changes of one node -/

/-- A view under which a change of a node is another change carries over to the change of it in its
place. -/
theorem map_modify_along {β : Type} {view : Node α → β} {change : Node α → Node α} {change' : β → β}
    (along : ∀ n, view (change n) = change' (view n)) (nodes : Nodes α) (m : NodeId) :
    (nodes.modify m change).map view = (nodes.map view).modify m change' := by
  refine List.ext_getElem? fun k => ?_
  rw [List.getElem?_map, List.getElem?_modify, List.getElem?_modify, List.getElem?_map]
  cases nodes[k]? with
  | none => rfl
  | some n =>
      by_cases h : m = k
      · simp [h, along]
      · simp [h]

/-- A view that a change of a node leaves alone is left alone by the change of it in its place. -/
theorem map_modify {β : Type} {view : Node α → β} {change : Node α → Node α}
    (keep : ∀ n, view (change n) = view n) (nodes : Nodes α) (m : NodeId) :
    (nodes.modify m change).map view = nodes.map view :=
  (map_modify_along keep nodes m).trans (List.modify_id m _)

theorem unvalued_setValue (nodes : Nodes α) (m : NodeId) (i : Index) (v : Tensor α) :
    (nodes.setValue m i v).unvalued = nodes.unvalued :=
  map_modify (fun n => n.unvalue_setValue i v) nodes m

theorem ungraded_setGradient (nodes : Nodes α) (m : NodeId) (i : Index) (g : Tensor α) :
    (nodes.setGradient m i g).ungraded = nodes.ungraded :=
  map_modify (fun n => n.ungrade_setGradient i g) nodes m

/-! ### Views that do not see values, or gradients -/

section Views

variable {nodes nodes' : Nodes α} {n : NodeId}

theorem map_of_unvalued {β : Type} (view : Node α → β) (blind : ∀ n : Node α, view n.unvalue = view n)
    (same : nodes'.unvalued = nodes.unvalued) : nodes'.map view = nodes.map view := by
  have through (ns : Nodes α) : ns.map view = ns.unvalued.map view := by
    simp [unvalued, Function.comp_def, blind]
  rw [through nodes', same, ← through]

theorem map_of_ungraded {β : Type} (view : Node α → β) (blind : ∀ n : Node α, view n.ungrade = view n)
    (same : nodes'.ungraded = nodes.ungraded) : nodes'.map view = nodes.map view := by
  have through (ns : Nodes α) : ns.map view = ns.ungraded.map view := by
    simp [ungraded, Function.comp_def, blind]
  rw [through nodes', same, ← through]

theorem profiles_of_unvalued (same : nodes'.unvalued = nodes.unvalued) :
    nodes'.profiles = nodes.profiles :=
  map_of_unvalued Node.profile (fun _ => rfl) same

theorem profiles_of_ungraded (same : nodes'.ungraded = nodes.ungraded) :
    nodes'.profiles = nodes.profiles :=
  map_of_ungraded Node.profile (fun _ => rfl) same

theorem getElem?_map_of_eq {β : Type} {view : Node α → β} (same : nodes'.map view = nodes.map view)
    (n : NodeId) : nodes'[n]?.map view = nodes[n]?.map view := by
  rw [← List.getElem?_map, same, List.getElem?_map]

theorem length_of_ungraded (same : nodes'.ungraded = nodes.ungraded) :
    nodes'.length = nodes.length := by
  have h := congrArg List.length same
  simpa [ungraded] using h

theorem value?_of_ungraded (same : nodes'.ungraded = nodes.ungraded) (n : NodeId) (i : Index) :
    nodes'.value? n i = nodes.value? n i := by
  have h := getElem?_map_of_eq (map_of_ungraded (·.value? i) (fun _ => rfl) same) n
  unfold value?
  cases hn' : nodes'[n]? <;> cases hn : nodes[n]? <;> simp_all

theorem valueAt_of_ungraded [Zero α] (same : nodes'.ungraded = nodes.ungraded) (i : Index) :
    nodes'.valueAt i = nodes.valueAt i := by
  funext n
  rw [valueAt, value?_of_ungraded same]
  rfl

theorem gradient?_of_unvalued (same : nodes'.unvalued = nodes.unvalued) (n : NodeId) (i : Index) :
    nodes'.gradient? n i = nodes.gradient? n i := by
  have h := getElem?_map_of_eq (map_of_unvalued (·.gradient? i) (fun _ => rfl) same) n
  unfold gradient?
  cases hn' : nodes'[n]? <;> cases hn : nodes[n]? <;> simp_all

theorem open_iff : nodes.Open ↔ ∀ s ∈ nodes.map (·.stopped), s = false := by
  simp [Open]

theorem open_of_unvalued (same : nodes'.unvalued = nodes.unvalued) : nodes'.Open ↔ nodes.Open := by
  rw [open_iff, open_iff, map_of_unvalued (·.stopped) (fun _ => rfl) same]

theorem open_of_ungraded (same : nodes'.ungraded = nodes.ungraded) : nodes'.Open ↔ nodes.Open := by
  rw [open_iff, open_iff, map_of_ungraded (·.stopped) (fun _ => rfl) same]

theorem stores_iff : nodes.Stores n ↔ ∃ c, nodes.profiles[n]? = some c ∧ c.constant = false := by
  rw [profiles, List.getElem?_map]
  constructor
  · rintro ⟨c, hc, plain⟩
    exact ⟨c.profile, by rw [hc]; rfl, plain⟩
  · rintro ⟨c, hc, plain⟩
    obtain ⟨c', hc', rfl⟩ := Option.map_eq_some_iff.mp hc
    exact ⟨c', hc', plain⟩

theorem stores_of_profiles (same : nodes'.profiles = nodes.profiles) :
    nodes'.Stores n ↔ nodes.Stores n := by
  rw [stores_iff, stores_iff, same]

theorem takes_iff : nodes.Takes n ↔ (nodes.map (·.stopped))[n]? = some false := by
  rw [List.getElem?_map]
  constructor
  · rintro ⟨c, hc, taking⟩
    rw [hc, Option.map_some, taking]
  · intro h
    obtain ⟨c, hc, taking⟩ := Option.map_eq_some_iff.mp h
    exact ⟨c, hc, taking⟩

theorem takes_of_ungraded (same : nodes'.ungraded = nodes.ungraded) :
    nodes'.Takes n ↔ nodes.Takes n := by
  rw [takes_iff, takes_iff, map_of_ungraded (·.stopped) (fun _ => rfl) same]

theorem shapeOf_eq (nodes : Nodes α) (n : NodeId) :
    Link.shapeOf nodes n = (nodes.profiles[n]?.map (·.shape)).getD [] := by
  simp [Link.shapeOf, profiles, Node.profile, Function.comp_def]

theorem shapeOf_of_profiles (same : nodes'.profiles = nodes.profiles) (n : NodeId) :
    Link.shapeOf nodes' n = Link.shapeOf nodes n := by
  rw [shapeOf_eq, shapeOf_eq, same]

theorem shapeOf_of_ungraded (same : nodes'.ungraded = nodes.ungraded) :
    Link.shapeOf nodes' = Link.shapeOf nodes :=
  funext (shapeOf_of_profiles (profiles_of_ungraded same))

theorem Fits.of_ungraded {i : Index} (fits : nodes.Fits i)
    (same : nodes'.ungraded = nodes.ungraded) : nodes'.Fits i := by
  intro m v h
  rw [value?_of_ungraded same] at h
  rw [fits m v h, shapeOf_of_ungraded same]

theorem shapeOf_of_getElem? {n : NodeId} {c : Node α} (h : nodes[n]? = some c) :
    Link.shapeOf nodes n = c.shape := by
  simp [Link.shapeOf, h]

theorem referenceAt_of_unvalued [Zero α] (same : nodes'.unvalued = nodes.unvalued) :
    nodes'.referenceAt = nodes.referenceAt := by
  funext n
  have h := getElem?_map_of_eq (map_of_unvalued (·.reference) (fun _ => rfl) same) n
  rw [referenceAt, h]
  rfl

theorem referenceAt_of_getElem? [Zero α] {n : NodeId} {c : Node α} (h : nodes[n]? = some c) :
    nodes.referenceAt n = c.reference := by
  simp [referenceAt, h]

/-- A node keeps its tensor when nodes are added behind it. -/
theorem referenceAt_of_grown [Zero α] (grown : nodes <+: nodes') (inside : n < nodes.length) :
    nodes'.referenceAt n = nodes.referenceAt n := by
  obtain ⟨more, rfl⟩ := grown
  unfold referenceAt
  rw [List.getElem?_append_left inside]

end Views

/-! ### Reading -/

theorem readValue_ok {nodes : Nodes α} {i : Index} {n : NodeId} {v : Tensor α} :
    nodes.readValue i n = .ok v ↔ nodes.value? n i = some v := by
  unfold readValue
  cases nodes.value? n i <;> simp

theorem readGradient_ok {nodes : Nodes α} {i : Index} {n : NodeId} {g : Tensor α} :
    nodes.readGradient i n = .ok g ↔ nodes.gradient? n i = some g := by
  unfold readGradient
  cases nodes.gradient? n i <;> simp

theorem readValue_congr {nodes nodes' : Nodes α} {i : Index} {n : NodeId}
    (same : nodes'.value? n i = nodes.value? n i) : nodes'.readValue i n = nodes.readValue i n := by
  unfold readValue
  rw [same]

theorem valueAt_of_value? [Zero α] {nodes : Nodes α} {i : Index} {n : NodeId} {v : Tensor α}
    (h : nodes.value? n i = some v) : nodes.valueAt i n = v := by
  rw [valueAt, h]
  rfl

theorem value?_of_getElem? {nodes : Nodes α} {n : NodeId} {c : Node α} (h : nodes[n]? = some c)
    (i : Index) : nodes.value? n i = c.value? i := by
  simp [value?, h]

theorem gradient?_of_getElem? {nodes : Nodes α} {n : NodeId} {c : Node α} (h : nodes[n]? = some c)
    (i : Index) : nodes.gradient? n i = c.gradient? i := by
  simp [gradient?, h]

/-- The values at an index fit, if those of each node do. -/
theorem fits_iff {nodes : Nodes α} {i : Index} :
    nodes.Fits i ↔ ∀ c ∈ nodes, ∀ v ∈ c.value? i, v.shape = c.shape := by
  constructor
  · intro fits c hc v hv
    obtain ⟨m, hm⟩ := List.mem_iff_getElem?.mp hc
    rw [fits m v ((value?_of_getElem? hm i).trans hv), shapeOf_of_getElem? hm]
  · intro each m v found
    obtain ⟨c, hc, hv⟩ := Option.bind_eq_some_iff.mp found
    rw [each c (List.mem_of_getElem? hc) v hv, shapeOf_of_getElem? hc]

instance (nodes : Nodes α) (i : Index) : Decidable (nodes.Fits i) :=
  decidable_of_iff _ fits_iff.symm

/-! ### Look-ups after a write -/

/-- A value is stored in one node at one index. -/
theorem value?_setValue_of_ne (nodes : Nodes α) {m n : NodeId} {i j : Index} (v : Tensor α)
    (h : n ≠ m ∨ j ≠ i) : (nodes.setValue m i v).value? n j = nodes.value? n j := by
  unfold value? setValue
  rw [List.getElem?_modify]
  by_cases same : m = n
  · subst same
    have hj : j ≠ i := h.resolve_left fun ne => ne rfl
    cases nodes[m]? with
    | none => rfl
    | some c =>
        cases hc : c.constant with
        | true => simp [Node.setValue, hc]
        | false => simp [Node.value?_setValue hc, hj]
  · simp [same]

theorem stores_setValue (nodes : Nodes α) (m n : NodeId) (i : Index) (v : Tensor α) :
    (nodes.setValue m i v).Stores n ↔ nodes.Stores n :=
  stores_of_profiles (profiles_of_unvalued (unvalued_setValue nodes m i v))

/-- A node that is no constant holds what was stored in it last. -/
theorem value?_setValue_self {nodes : Nodes α} {m : NodeId} {c : Node α} (h : nodes[m]? = some c)
    (hc : c.constant = false) (i : Index) (v : Tensor α) :
    (nodes.setValue m i v).value? m i = some v := by
  simp [value?, setValue, h, Node.value?_setValue hc]

theorem gradient?_setGradient_of_ne (nodes : Nodes α) {m n : NodeId} {i j : Index} (g : Tensor α)
    (h : n ≠ m ∨ j ≠ i) : (nodes.setGradient m i g).gradient? n j = nodes.gradient? n j := by
  unfold gradient? setGradient
  rw [List.getElem?_modify]
  by_cases same : m = n
  · subst same
    have hj : j ≠ i := h.resolve_left fun ne => ne rfl
    cases nodes[m]? with
    | none => rfl
    | some c => simp [Node.gradient?_setGradient, hj]
  · simp [same]

theorem gradient?_setGradient_self {nodes : Nodes α} {m : NodeId} {c : Node α}
    (h : nodes[m]? = some c) (i : Index) (g : Tensor α) :
    (nodes.setGradient m i g).gradient? m i = some g := by
  simp [gradient?, setGradient, h, Node.gradient?_setGradient]

/-! ### Contributions -/

section Contributions

variable [Zero α] [Add α] [Sub α] [Neg α]

/-- A node that takes no contributions stays as it is. -/
theorem accumulate_of_not_takes {nodes : Nodes α} {m : NodeId} (closed : ¬ nodes.Takes m)
    (i : Index) (sign : Sign) (g : Tensor α) : nodes.accumulate m i sign g = .ok nodes := by
  unfold accumulate
  cases h : nodes[m]? with
  | none => rfl
  | some c =>
      have stopped : c.stopped = true := by
        by_contra stopped
        exact closed ⟨c, h, Bool.eq_false_iff.mpr stopped⟩
      obtain ⟨lt, rfl⟩ := List.getElem?_eq_some_iff.mp h
      simp [Node.accumulate, stopped, ofTensor, bind, Except.bind, List.set_getElem_self]

/-- A node that takes contributions stores the gradient combined with what it is so far. -/
theorem accumulate_of_takes {nodes : Nodes α} {m : NodeId} {c : Node α} (h : nodes[m]? = some c)
    (taking : c.stopped = false) (i : Index) (sign : Sign) (g : Tensor α) :
    nodes.accumulate m i sign g =
      (ofTensor (Node.combineGradient sign (c.gradient? i) (c.fit g))).map
        (nodes.setGradient m i) := by
  have write (γ : Tensor α) : nodes.set m (c.setGradient i γ) = nodes.setGradient m i γ := by
    rw [setGradient, List.modify_eq_set_getElem?, h]
    rfl
  unfold accumulate
  rw [h]
  simp only [Node.accumulate, taking, Bool.false_eq_true, if_false]
  cases Node.combineGradient sign (c.gradient? i) (c.fit g) with
  | error e => rfl
  | ok γ => exact congrArg Except.ok (write γ)

/-- A contribution that is made changes nothing but the gradient of its node at its index. -/
theorem accumulate_cases {nodes nodes' : Nodes α} {m : NodeId} {i : Index} {sign : Sign}
    {g : Tensor α} (h : nodes.accumulate m i sign g = .ok nodes') :
    ¬ nodes.Takes m ∧ nodes' = nodes ∨
      ∃ c γ, nodes[m]? = some c ∧ c.stopped = false ∧
        Node.combineGradient sign (c.gradient? i) (c.fit g) = .ok γ ∧
        nodes' = nodes.setGradient m i γ := by
  by_cases taking : nodes.Takes m
  · obtain ⟨c, hc, stopped⟩ := taking
    rw [accumulate_of_takes hc stopped] at h
    cases combined : Node.combineGradient sign (c.gradient? i) (c.fit g) with
    | error e =>
        rw [combined] at h
        cases h
    | ok γ =>
        rw [combined] at h
        cases h
        exact .inr ⟨c, γ, hc, stopped, combined, rfl⟩
  · rw [accumulate_of_not_takes taking] at h
    cases h
    exact .inl ⟨taking, rfl⟩

/-- A contribution that is made leaves a gradient, if its node takes it. -/
theorem accumulate_isSome {nodes nodes' : Nodes α} {m n : NodeId} {i : Index} {sign : Sign}
    {g : Tensor α} (h : nodes.accumulate m i sign g = .ok nodes') :
    (nodes'.gradient? n i).isSome ↔ (nodes.gradient? n i).isSome ∨ m = n ∧ nodes.Takes n := by
  rcases accumulate_cases h with ⟨closed, rfl⟩ | ⟨c, γ, hc, taking, -, rfl⟩
  · constructor
    · exact .inl
    · rintro (present | ⟨rfl, taking⟩)
      · exact present
      · exact absurd taking closed
  · by_cases same : m = n
    · subst same
      rw [gradient?_setGradient_self hc]
      constructor
      · intro _
        exact .inr ⟨rfl, c, hc, taking⟩
      · intro _
        rfl
    · rw [gradient?_setGradient_of_ne nodes γ (.inl (Ne.symm same))]
      constructor
      · exact .inl
      · rintro (before | ⟨here, -⟩)
        · exact before
        · exact absurd here same

theorem accumulate_gradient?_of_ne {nodes nodes' : Nodes α} {m n : NodeId} {i j : Index}
    {sign : Sign} {g : Tensor α} (h : nodes.accumulate m i sign g = .ok nodes')
    (apart : n ≠ m ∨ j ≠ i) : nodes'.gradient? n j = nodes.gradient? n j := by
  rcases accumulate_cases h with ⟨-, rfl⟩ | ⟨c, γ, -, -, -, rfl⟩
  · rfl
  · exact gradient?_setGradient_of_ne nodes γ apart

theorem accumulate_ungraded {nodes nodes' : Nodes α} {m : NodeId} {i : Index} {sign : Sign}
    {g : Tensor α} (h : nodes.accumulate m i sign g = .ok nodes') :
    nodes'.ungraded = nodes.ungraded := by
  rcases accumulate_cases h with ⟨-, rfl⟩ | ⟨c, γ, -, -, -, rfl⟩
  · rfl
  · exact ungraded_setGradient nodes m i γ

/-- A contribution fails only as an operation on tensors. -/
theorem accumulate_error {nodes : Nodes α} {m : NodeId} {i : Index} {sign : Sign} {g : Tensor α}
    {e : ReplayError} (h : nodes.accumulate m i sign g = .error e) : ∃ cause, e = .tensor cause := by
  by_cases taking : nodes.Takes m
  · obtain ⟨c, hc, stopped⟩ := taking
    rw [accumulate_of_takes hc stopped] at h
    cases combined : Node.combineGradient sign (c.gradient? i) (c.fit g) with
    | error cause =>
        rw [combined] at h
        cases h
        exact ⟨cause, rfl⟩
    | ok γ =>
        rw [combined] at h
        cases h
  · rw [accumulate_of_not_takes taking] at h
    cases h

end Contributions

end Nodes

end GradientReplay
