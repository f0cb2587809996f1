import GradientReplay.Procedure.Sequence
import GradientReplay.Proofs.Procedure.Plan

/-!
Replays: what a caller can do with a compiled procedure, and what no replay changes.

Going forward writes values only and going back writes gradients only, so whatever is done to a
procedure its plan stays (`reaches_plan`).
-/

namespace GradientReplay

variable {α : Type}

/-! ### What each direction writes -/

section Writes

variable [Zero α]

theorem Link.carryAll_ends (i : Index) (links : List (Link α)) (nodes : Nodes α) :
    (carryAll i links nodes).1.map ends = links.map ends := by
  induction links generalizing nodes with
  | nil => rfl
  | cons link links ih => exact congrArg (link.ends :: ·) (ih (link.carry i nodes).2)

/-- What storing a value in a consumer keeps, carrying over keeps. -/
theorem Link.carryAll_preserves {P : Nodes α → Prop} {i : Index} {links : List (Link α)}
    (keep : ∀ l ∈ links, ∀ nodes v, P nodes → P (nodes.setValue l.consumer i v)) {nodes : Nodes α}
    (h : P nodes) : P (carryAll i links nodes).2 := by
  induction links generalizing nodes with
  | nil => exact h
  | cons link links ih =>
      have first := keep link List.mem_cons_self nodes
        (supply (i.previous?.bind (nodes.value? link.producer)) link.lastValue
          (shapeOf nodes link.producer)) h
      exact ih (fun l hl => keep l (List.mem_cons_of_mem link hl)) first

theorem Link.carryAll_unvalued (i : Index) (links : List (Link α)) (nodes : Nodes α) :
    (carryAll i links nodes).2.unvalued = nodes.unvalued := by
  apply carryAll_preserves (P := fun ns : Nodes α => ns.unvalued = nodes.unvalued)
  · intro l _ nodes' v h
    rw [Nodes.unvalued_setValue, h]
  · rfl

section Contributions

variable [Add α] [Sub α] [Neg α]

/-- The gradient that a link hands to its producer at an index: that of its consumer at the index
after, or what stands in for it. -/
def Link.handed (link : Link α) (i : Index) (nodes : Nodes α) : Tensor α :=
  supply (i.next?.bind (nodes.gradient? link.consumer)) link.lastGradient
    (shapeOf nodes link.consumer)

/-- Off the last index the producer takes what the link hands on, and the link remembers what it
read. -/
theorem Link.giveBack_of_ne {i : Index} (below : i ≠ .last) (link : Link α) (nodes : Nodes α) :
    link.giveBack i nodes =
      (Outcome.ofExcept nodes (nodes.accumulate link.producer i .plus (link.handed i nodes))).embed
        fun ns => ({ link with lastGradient := i.next?.bind (nodes.gradient? link.consumer) }, ns) := by
  unfold giveBack handed
  cases after : i.next? with
  | none => exact absurd (Index.next?_eq_none.mp after) below
  | some j => rfl

/-- At the last index nothing is read and nothing changes. -/
theorem Link.giveBack_last (link : Link α) (nodes : Nodes α) :
    link.giveBack .last nodes = ⟨(link, nodes), .error .indexOverflow⟩ := rfl

/-- What setting the gradient of the producer keeps, giving back keeps, also where it fails. -/
theorem Link.giveBack_preserves {P : Nodes α → Prop} {link : Link α} {i : Index}
    (keep : ∀ nodes g, P nodes → P (nodes.setGradient link.producer i g)) {nodes : Nodes α}
    (h : P nodes) : P (link.giveBack i nodes).state.2 := by
  by_cases top : i = .last
  · subst top
    exact h
  · rw [giveBack_of_ne top]
    apply Outcome.ofExcept_preserves h
    intro nodes' given
    rcases Nodes.accumulate_cases given with ⟨-, rfl⟩ | ⟨-, γ, -, -, -, rfl⟩
    · exact h
    · exact keep nodes γ h

theorem Link.giveBack_link_of_ne {i : Index} (below : i ≠ .last) (link : Link α)
    (nodes : Nodes α) :
    (link.giveBack i nodes).state.1 =
      { link with lastGradient := i.next?.bind (nodes.gradient? link.consumer) } := by
  rw [giveBack_of_ne below, Outcome.embed_state]

/-- Giving back changes nothing of a link but its reading of a gradient. -/
theorem Link.giveBack_link (link : Link α) (i : Index) (nodes : Nodes α) :
    ∃ last, (link.giveBack i nodes).state.1 = { link with lastGradient := last } := by
  by_cases top : i = .last
  · subst top
    exact ⟨link.lastGradient, rfl⟩
  · exact ⟨_, link.giveBack_link_of_ne top nodes⟩

theorem Link.giveBack_frame (link : Link α) (i : Index) (nodes : Nodes α) :
    (link.giveBack i nodes).state.1.ends = link.ends ∧
      (link.giveBack i nodes).state.2.ungraded = nodes.ungraded := by
  constructor
  · obtain ⟨last, same⟩ := link.giveBack_link i nodes
    rw [same]
    rfl
  · apply giveBack_preserves (P := fun ns : Nodes α => ns.ungraded = nodes.ungraded)
    · intro nodes' g h
      rw [Nodes.ungraded_setGradient, h]
    · rfl

/-- The links give back one after the other, until one fails. -/
theorem Link.giveBackAll_cons (i : Index) (link : Link α) (links : List (Link α))
    (nodes : Nodes α) :
    giveBackAll i (link :: links) nodes =
      match (link.giveBack i nodes).result with
      | .error e => ⟨((link.giveBack i nodes).state.1 :: links, (link.giveBack i nodes).state.2),
          .error e⟩
      | .ok () => (giveBackAll i links (link.giveBack i nodes).state.2).embed
          fun s => ((link.giveBack i nodes).state.1 :: s.1, s.2) := by
  rw [giveBackAll]
  rcases link.giveBack i nodes with ⟨⟨link', nodes'⟩, result⟩
  cases result <;> rfl

/-- What setting the gradient of a producer keeps, giving back keeps, however far it gets. -/
theorem Link.giveBackAll_preserves {P : Nodes α → Prop} {i : Index} {links : List (Link α)}
    (keep : ∀ l ∈ links, ∀ nodes g, P nodes → P (nodes.setGradient l.producer i g))
    {nodes : Nodes α} (h : P nodes) : P (giveBackAll i links nodes).state.2 := by
  induction links generalizing nodes with
  | nil => exact h
  | cons link links ih =>
      have first := giveBack_preserves (keep link List.mem_cons_self) h
      rw [giveBackAll_cons]
      split
      · exact first
      · exact ih (fun l hl => keep l (List.mem_cons_of_mem link hl)) first

theorem Link.giveBackAll_frame (i : Index) (links : List (Link α)) (nodes : Nodes α) :
    (giveBackAll i links nodes).state.1.map ends = links.map ends ∧
      (giveBackAll i links nodes).state.2.ungraded = nodes.ungraded := by
  constructor
  · induction links generalizing nodes with
    | nil => rfl
    | cons link links ih =>
        have first := (link.giveBack_frame i nodes).1
        rw [giveBackAll_cons]
        split
        · exact congrArg (· :: links.map ends) first
        · exact congrArg₂ List.cons first (ih (link.giveBack i nodes).state.2)
  · apply giveBackAll_preserves (P := fun ns : Nodes α => ns.ungraded = nodes.ungraded)
    · intro l _ nodes' g h
      rw [Nodes.ungraded_setGradient, h]
    · rfl

/-- What setting the gradient of its node keeps, a contribution keeps, also where it fails. -/
theorem Contribution.apply_preserves {P : Nodes α → Prop} {i : Index} {c : Contribution α}
    (keep : ∀ nodes g, P nodes → P (nodes.setGradient c.node i g)) {nodes : Nodes α}
    (h : P nodes) : P (c.apply i nodes).state := by
  apply Outcome.ofExcept_preserves h
  intro nodes' applied
  rcases Nodes.accumulate_cases applied with ⟨-, rfl⟩ | ⟨-, γ, -, -, -, rfl⟩
  · exact h
  · exact keep nodes γ h

theorem Contribution.apply_ungraded (i : Index) (nodes : Nodes α) (c : Contribution α) :
    (c.apply i nodes).state.ungraded = nodes.ungraded := by
  apply apply_preserves (P := fun ns : Nodes α => ns.ungraded = nodes.ungraded)
  · intro nodes' g h
    rw [Nodes.ungraded_setGradient, h]
  · rfl

end Contributions

variable [Add α] [Sub α] [Mul α] [Div α] [BEq α]

/-- An expression that succeeds stores one value. -/
theorem Expression.forward_ok {e : Expression α} {i : Index} {nodes nodes' : Nodes α}
    (h : e.forward i nodes = .ok nodes') :
    ∃ v, e.evaluate i nodes = .ok v ∧ nodes' = nodes.setValue e.result i v := by
  obtain ⟨v, hv, h⟩ := bind_ok_iff.mp h
  cases h
  exact ⟨v, hv, rfl⟩

/-- What storing a value in a result keeps, going forward keeps, however far it gets. -/
theorem Expression.forwardAll_preserves {P : Nodes α → Prop} {i : Index}
    {es : List (Expression α)}
    (keep : ∀ e ∈ es, ∀ nodes v, P nodes → P (nodes.setValue e.result i v)) {nodes : Nodes α}
    (h : P nodes) : P (forwardAll i es nodes).state := by
  apply Outcome.each_preserves _ h
  intro ns e he hs
  apply Outcome.ofExcept_preserves hs
  intro nodes' forwarded
  obtain ⟨v, -, rfl⟩ := forward_ok forwarded
  exact keep e he ns v hs

variable [Neg α]

/-- What setting a gradient keeps, the rule of an expression keeps, however far it gets. -/
theorem Expression.backward_preserves {P : Nodes α → Prop} {i : Index}
    (keep : ∀ nodes m g, P nodes → P (nodes.setGradient m i g)) (e : Expression α)
    {nodes : Nodes α} (h : P nodes) : P (e.backward i nodes).state := by
  unfold backward
  split
  · exact h
  · apply Outcome.each_preserves _ h
    intro nodes' c _ h
    exact Contribution.apply_preserves (fun ns g => keep ns c.node g) h

theorem Expression.backward_ungraded (e : Expression α) (i : Index) (nodes : Nodes α) :
    (e.backward i nodes).state.ungraded = nodes.ungraded := by
  apply backward_preserves (P := fun ns : Nodes α => ns.ungraded = nodes.ungraded)
  · intro nodes' m g h
    rw [Nodes.ungraded_setGradient, h]
  · rfl

/-- What setting a gradient keeps, going back keeps, however far it gets. -/
theorem Expression.backwardAll_preserves {P : Nodes α → Prop} {i : Index}
    (keep : ∀ nodes m g, P nodes → P (nodes.setGradient m i g)) (es : List (Expression α))
    {nodes : Nodes α} (h : P nodes) : P (backwardAll i es nodes).state := by
  apply Outcome.each_preserves _ h
  intro nodes' e _ h
  exact backward_preserves keep e h

theorem Expression.backwardAll_ungraded (i : Index) (es : List (Expression α)) (nodes : Nodes α) :
    (backwardAll i es nodes).state.ungraded = nodes.ungraded := by
  apply backwardAll_preserves (P := fun ns : Nodes α => ns.ungraded = nodes.ungraded)
  · intro nodes' m g h
    rw [Nodes.ungraded_setGradient, h]
  · rfl

end Writes

/-! ### Replays -/

/-- What a caller can do with a compiled procedure. -/
inductive Replay (α : Type) where
  | forward (i : Index) (input : Tensor α)
  | backward (i : Index) (gradient : Tensor α)
  | forwardSeries (inputs : Series (Tensor α))
  | backwardSeries (gradients : Series (Tensor α)) (steps : Option Nat)
  | reset
  | resetIndex (i : Index)
  | resetLinks
  | updateConstant (x : Operand α)
  | setStopped (tensor : TensorId) (stopped : Bool)

/-- What a replay answers. -/
inductive Answer (α : Type) where
  | node (n : NodeId)
  | series (s : Series (Tensor α))
  | done

namespace Procedure

/-- A procedure with these links and nodes has the plan it had, if they are the same ones as
before but for what they hold. -/
theorem plan_congr {p : Procedure α} {links : List (Link α)} {nodes : Nodes α}
    (ends : links.map Link.ends = p.links.map Link.ends)
    (profiles : nodes.profiles = p.nodes.profiles) : plan { p with links, nodes } = p.plan := by
  simp only [plan, ends, profiles]

/-! ### Resets and changes of one node -/

theorem reset_plan (p : Procedure α) : p.reset.plan = p.plan := by
  refine plan_congr ?_ ?_
  · rw [List.map_map]
    rfl
  · unfold Nodes.profiles
    rw [List.map_map]
    rfl

theorem resetIndex_plan (p : Procedure α) (i : Index) : (p.resetIndex i).plan = p.plan := by
  refine plan_congr rfl ?_
  unfold Nodes.profiles
  rw [List.map_map]
  rfl

theorem resetLinks_plan (p : Procedure α) : p.resetLinks.plan = p.plan := by
  refine plan_congr ?_ rfl
  rw [List.map_map]
  rfl

/-- Giving a constant new contents changes its shared value, which keeps its shape. -/
theorem updateConstant_ok {p q : Procedure α} {x : Operand α} (h : p.updateConstant x = .ok q) :
    ∃ (node : NodeId) (n : Node α), p.nodes[node]? = some n ∧ n.constant = true ∧
      n.shape = x.tensor.shape ∧
      q = { p with nodes := p.nodes.set node { n with reference := x.tensor } } := by
  obtain ⟨node, -, h⟩ := bind_ok_iff.mp h
  cases found : p.nodes[node]? with
  | none =>
      rw [found] at h
      cases h
  | some n =>
      rw [found] at h
      obtain ⟨n', changed, h⟩ := bind_ok_iff.mp h
      cases h
      unfold Node.setConstant at changed
      split at changed
      · cases changed
      · rename_i const
        split at changed
        · cases changed
        · rename_i shape
          cases changed
          exact ⟨node, n, found, by simpa using const, by simpa using shape, rfl⟩

theorem updateConstant_plan {p q : Procedure α} {x : Operand α}
    (h : p.updateConstant x = .ok q) : q.plan = p.plan := by
  obtain ⟨node, n, found, -, shape, rfl⟩ := updateConstant_ok h
  refine plan_congr rfl ?_
  unfold Nodes.profiles
  have same : Node.profile { n with reference := x.tensor } = n.profile := by
    simp only [Node.profile, Node.shape] at shape ⊢
    rw [shape]
  obtain ⟨lt, rfl⟩ := List.getElem?_eq_some_iff.mp found
  rw [List.map_set, same, ← List.getElem_map Node.profile, List.set_getElem_self]
  simpa using lt

theorem setStopped_ok {p q : Procedure α} {tensor : TensorId} {stopped : Bool}
    (h : p.setStopped tensor stopped = .ok q) :
    ∃ node, q = { p with nodes := p.nodes.modify node (·.setStopped stopped) } := by
  obtain ⟨node, -, h⟩ := bind_ok_iff.mp h
  cases h
  exact ⟨node, rfl⟩

theorem setStopped_plan {p q : Procedure α} {tensor : TensorId} {stopped : Bool}
    (h : p.setStopped tensor stopped = .ok q) : q.plan = p.plan := by
  obtain ⟨node, rfl⟩ := setStopped_ok h
  refine plan_congr rfl ?_
  apply Nodes.map_modify
  intro n
  rfl

section Replay

variable [Zero α] [Add α] [Sub α] [Mul α] [Div α] [Neg α] [BEq α]

/-- The procedure after a replay, whether it succeeded or failed. -/
def replay (p : Procedure α) : Replay α → Procedure α
  | .forward i input => (p.forward i input).state
  | .backward i gradient => (p.backward i gradient).state
  | .forwardSeries inputs => (p.forwardSeries inputs).state
  | .backwardSeries gradients steps => (p.backwardSeries gradients steps).state
  | .reset => p.reset
  | .resetIndex i => p.resetIndex i
  | .resetLinks => p.resetLinks
  | .updateConstant x => (Outcome.ofExcept p (p.updateConstant x)).state
  | .setStopped tensor stopped => (Outcome.ofExcept p (p.setStopped tensor stopped)).state

/-- Make a replay and answer it. -/
def perform (p : Procedure α) : Replay α → Outcome ReplayError (Procedure α) (Answer α)
  | .forward i input => (p.forward i input).andThen fun p node => .done p (.node node)
  | .backward i gradient => (p.backward i gradient).andThen fun p node => .done p (.node node)
  | .forwardSeries inputs => (p.forwardSeries inputs).andThen fun p outputs =>
      .done p (.series outputs)
  | .backwardSeries gradients steps => (p.backwardSeries gradients steps).andThen fun p found =>
      .done p (.series found)
  | .reset => .done p.reset .done
  | .resetIndex i => .done (p.resetIndex i) .done
  | .resetLinks => .done p.resetLinks .done
  | .updateConstant x => (Outcome.ofExcept p (p.updateConstant x)).andThen fun p _ =>
      .done p .done
  | .setStopped tensor stopped => (Outcome.ofExcept p (p.setStopped tensor stopped)).andThen
      fun p _ => .done p .done

theorem perform_state (p : Procedure α) (r : Replay α) : (p.perform r).state = p.replay r := by
  cases r with
  | reset | resetIndex | resetLinks => rfl
  | forward | backward | forwardSeries | backwardSeries | updateConstant | setStopped =>
      exact Outcome.andThen_done_state _ _

/-- The replays one after the other, each with its answer and the state that it left. -/
def transcript (p : Procedure α) :
    List (Replay α) → List (Outcome ReplayError (Procedure α) (Answer α))
  | [] => []
  | r :: replays => p.perform r :: transcript (p.replay r) replays

/-- The states that replays can lead to. -/
def Reaches (p q : Procedure α) : Prop :=
  ∃ replays : List (Replay α), q = replays.foldl replay p

/-- What each replay keeps, any number of them keeps. -/
theorem Reaches.preserves {P : Procedure α → Prop} (keep : ∀ p r, P p → P (p.replay r))
    {p q : Procedure α} (reaches : p.Reaches q) (h : P p) : P q := by
  obtain ⟨replays, rfl⟩ := reaches
  induction replays generalizing p with
  | nil => exact h
  | cons r replays ih => exact ih (keep p r h)

/-! ### One replay forward and one back -/

/-- The nodes with the state carried over and the input bound, before any expression. -/
def seeded (p : Procedure α) (i : Index) (input : Tensor α) : Nodes α :=
  (Link.carryAll i p.links p.nodes).2.setValue p.input i input

omit [Neg α] in
theorem forward_eq (p : Procedure α) (i : Index) (input : Tensor α) :
    p.forward i input =
      ((Expression.forwardAll i p.forwardOrder (p.seeded i input)).embed fun nodes =>
        { p with links := (Link.carryAll i p.links p.nodes).1, nodes }).andThen
          fun p _ => .done p p.output := rfl

omit [Neg α] in
theorem forward_state (p : Procedure α) (i : Index) (input : Tensor α) :
    (p.forward i input).state =
      { p with
        links := (Link.carryAll i p.links p.nodes).1
        nodes := (Expression.forwardAll i p.forwardOrder (p.seeded i input)).state } :=
  Outcome.andThen_done_state _ _

omit [Neg α] in
theorem forward_result (p : Procedure α) (i : Index) (input : Tensor α) :
    (p.forward i input).result =
      (Expression.forwardAll i p.forwardOrder (p.seeded i input)).result.map
        fun _ => p.output :=
  Outcome.andThen_done_result _ _

omit [Neg α] in
/-- What storing a value at an index keeps, a replay forward there keeps, however far it gets. -/
theorem forward_preserves {P : Nodes α → Prop} {p : Procedure α} {i : Index}
    (keep : ∀ nodes m v, P nodes → P (nodes.setValue m i v)) (input : Tensor α) (h : P p.nodes) :
    P (p.forward i input).state.nodes := by
  rw [forward_state]
  apply Expression.forwardAll_preserves fun e _ nodes v => keep nodes e.result v
  apply keep
  exact Link.carryAll_preserves (fun l _ nodes v => keep nodes l.consumer v) h

omit [Neg α] in
/-- What storing a value at an index leaves of a node, a replay forward there leaves. -/
theorem forward_map {β : Type} {view : Node α → β} {p : Procedure α} {i : Index}
    (keep : ∀ n v, view (n.setValue i v) = view n) (input : Tensor α) :
    (p.forward i input).state.nodes.map view = p.nodes.map view := by
  apply forward_preserves (P := fun ns => ns.map view = p.nodes.map view)
  · intro nodes m v h
    exact (Nodes.map_modify (fun n => keep n v) nodes m).trans h
  · rfl

omit [Neg α] in
theorem forward_unvalued (p : Procedure α) (i : Index) (input : Tensor α) :
    (p.forward i input).state.nodes.unvalued = p.nodes.unvalued :=
  forward_map (fun n v => n.unvalue_setValue i v) input

omit [Neg α] in
theorem forward_plan (p : Procedure α) (i : Index) (input : Tensor α) :
    (p.forward i input).state.plan = p.plan := by
  have unvalued := p.forward_unvalued i input
  rw [forward_state] at unvalued ⊢
  exact plan_congr (Link.carryAll_ends i p.links p.nodes) (Nodes.profiles_of_unvalued unvalued)

omit [Neg α] in
theorem forward_forwardOrder (p : Procedure α) (i : Index) (input : Tensor α) :
    (p.forward i input).state.forwardOrder = p.forwardOrder :=
  congrArg Plan.forwardOrder (p.forward_plan i input)

/-- The links and nodes once the gradient of the output is set and the links have given back. -/
def given (p : Procedure α) (i : Index) (gradient : Tensor α) :
    Outcome ReplayError (List (Link α) × Nodes α) Unit :=
  Link.giveBackAll i p.links (p.nodes.setGradient p.output i gradient)

omit [Mul α] [Div α] [BEq α] in
theorem given_frame (p : Procedure α) (i : Index) (gradient : Tensor α) :
    (p.given i gradient).state.1.map Link.ends = p.links.map Link.ends ∧
      (p.given i gradient).state.2.ungraded = p.nodes.ungraded := by
  obtain ⟨ends, ungraded⟩ := Link.giveBackAll_frame i p.links (p.nodes.setGradient p.output i gradient)
  exact ⟨ends, ungraded.trans (Nodes.ungraded_setGradient p.nodes p.output i gradient)⟩

theorem backward_eq (p : Procedure α) (i : Index) (gradient : Tensor α) :
    p.backward i gradient =
      ((p.given i gradient).embed fun s => { p with links := s.1, nodes := s.2 }).andThen
        fun p _ =>
          ((Expression.backwardAll i p.backwardOrder p.nodes).embed
            fun nodes => { p with nodes }).andThen fun p _ => .done p p.input := rfl

/-- If the links give back, what follows are the rules of the backward order. -/
theorem backward_of_given {p : Procedure α} {i : Index} {gradient : Tensor α}
    (h : (p.given i gradient).result = .ok ()) :
    (p.backward i gradient).state =
        { p with
          links := (p.given i gradient).state.1
          nodes := (Expression.backwardAll i p.backwardOrder (p.given i gradient).state.2).state } ∧
      (p.backward i gradient).result =
        (Expression.backwardAll i p.backwardOrder (p.given i gradient).state.2).result.map
          fun _ => p.input := by
  rw [backward_eq, Outcome.andThen_of_ok ((Outcome.embed_result _ _).trans h)]
  exact ⟨Outcome.andThen_done_state _ _, Outcome.andThen_done_result _ _⟩

/-- If a link fails to give back, nothing follows. -/
theorem backward_of_not_given {p : Procedure α} {i : Index} {gradient : Tensor α} {e : ReplayError}
    (h : (p.given i gradient).result = .error e) :
    p.backward i gradient =
      ⟨{ p with links := (p.given i gradient).state.1, nodes := (p.given i gradient).state.2 },
        .error e⟩ := by
  rw [backward_eq, Outcome.andThen_of_error ((Outcome.embed_result _ _).trans h)]
  rfl

/-- A replay back changes the links and the nodes only, and the links as far as they gave back. -/
theorem backward_state (p : Procedure α) (i : Index) (gradient : Tensor α) :
    (p.backward i gradient).state =
      { p with
        links := (p.given i gradient).state.1
        nodes := (p.backward i gradient).state.nodes } := by
  cases result : (p.given i gradient).result with
  | ok b => rw [(backward_of_given result).1]
  | error e => rw [backward_of_not_given result]

/-- What setting a gradient at an index keeps, a replay back there keeps, however far it gets. -/
theorem backward_preserves {P : Nodes α → Prop} {p : Procedure α} {i : Index}
    (keep : ∀ nodes m g, P nodes → P (nodes.setGradient m i g)) (gradient : Tensor α)
    (h : P p.nodes) : P (p.backward i gradient).state.nodes := by
  have given : P (p.given i gradient).state.2 :=
    Link.giveBackAll_preserves (fun l _ nodes g => keep nodes l.producer g) (keep _ _ _ h)
  cases result : (p.given i gradient).result with
  | ok b =>
      rw [(backward_of_given result).1]
      exact Expression.backwardAll_preserves keep p.backwardOrder given
  | error e =>
      rw [backward_of_not_given result]
      exact given

/-- What setting a gradient at an index leaves of a node, a replay back there leaves. -/
theorem backward_map {β : Type} {view : Node α → β} {p : Procedure α} {i : Index}
    (keep : ∀ n g, view (n.setGradient i g) = view n) (gradient : Tensor α) :
    (p.backward i gradient).state.nodes.map view = p.nodes.map view := by
  apply backward_preserves (P := fun ns => ns.map view = p.nodes.map view)
  · intro nodes m g h
    exact (Nodes.map_modify (fun n => keep n g) nodes m).trans h
  · rfl

theorem backward_ungraded (p : Procedure α) (i : Index) (gradient : Tensor α) :
    (p.backward i gradient).state.nodes.ungraded = p.nodes.ungraded :=
  backward_map (fun n g => n.ungrade_setGradient i g) gradient

theorem backward_plan (p : Procedure α) (i : Index) (gradient : Tensor α) :
    (p.backward i gradient).state.plan = p.plan := by
  have profiles := Nodes.profiles_of_ungraded (p.backward_ungraded i gradient)
  rw [backward_state]
  exact plan_congr (p.given_frame i gradient).1 profiles

/-! ### Series of replays -/

omit [Neg α] in
theorem forwardEntry_state (p : Procedure α) (entry : Index × Tensor α) :
    (p.forwardEntry entry).state = (p.forward entry.1 entry.2).state := by
  unfold forwardEntry Outcome.andThen
  split <;> rfl

theorem backwardEntry_state (p : Procedure α) (entry : Index × Tensor α) :
    (p.backwardEntry entry).state = (p.backward entry.1 entry.2).state :=
  Outcome.andThen_done_state _ _

omit [Neg α] in
/-- What each replay forward keeps, a series of them keeps. -/
theorem forwardSeries_preserves {P : Procedure α → Prop}
    (keep : ∀ p i x, P p → P (p.forward i x).state) {p : Procedure α} (h : P p)
    (inputs : Series (Tensor α)) : P (p.forwardSeries inputs).state := by
  unfold forwardSeries
  rw [Outcome.andThen_done_state]
  apply Outcome.collect_preserves _ h
  intro p entry h
  rw [forwardEntry_state]
  exact keep p entry.1 entry.2 h

/-- What each replay back keeps, a series of them keeps. -/
theorem backwardSeries_preserves {P : Procedure α → Prop}
    (keep : ∀ p i g, P p → P (p.backward i g).state) {p : Procedure α} (h : P p)
    (gradients : Series (Tensor α)) (steps : Option Nat) :
    P (p.backwardSeries gradients steps).state := by
  unfold backwardSeries
  rw [Outcome.andThen_done_state]
  apply Outcome.collect_preserves _ h
  intro p entry h
  rw [backwardEntry_state]
  exact keep p entry.1 entry.2 h

/-! ### What no replay changes -/

/-- No replay changes the plan. -/
theorem replay_plan (p : Procedure α) (r : Replay α) : (p.replay r).plan = p.plan := by
  cases r with
  | forward i input => exact p.forward_plan i input
  | backward i gradient => exact p.backward_plan i gradient
  | forwardSeries inputs =>
      apply forwardSeries_preserves (P := fun q : Procedure α => q.plan = p.plan) _ rfl
      intro q i x h
      rw [q.forward_plan, h]
  | backwardSeries gradients steps =>
      apply backwardSeries_preserves (P := fun q : Procedure α => q.plan = p.plan) _ rfl
      intro q i g h
      rw [q.backward_plan, h]
  | reset => exact p.reset_plan
  | resetIndex i => exact p.resetIndex_plan i
  | resetLinks => exact p.resetLinks_plan
  | updateConstant x =>
      apply Outcome.ofExcept_preserves (P := fun q : Procedure α => q.plan = p.plan) rfl
      intro q h
      exact updateConstant_plan h
  | setStopped tensor stopped =>
      apply Outcome.ofExcept_preserves (P := fun q : Procedure α => q.plan = p.plan) rfl
      intro q h
      exact setStopped_plan h

theorem reaches_plan {p q : Procedure α} (reaches : p.Reaches q) : q.plan = p.plan := by
  apply reaches.preserves (P := fun q : Procedure α => q.plan = p.plan) _ rfl
  intro q r h
  rw [q.replay_plan, h]

end Replay

end Procedure

end GradientReplay
