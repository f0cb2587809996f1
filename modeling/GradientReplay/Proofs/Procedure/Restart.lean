import GradientReplay.Descriptor.Basic
import GradientReplay.Procedure.Text
import GradientReplay.Proofs.Procedure.Recurrence

/-!
Starting again.

No replay changes what a procedure was compiled to: its plan, the tensors of the nodes that are no
constants, and that constants hold nothing at an index (`reaches_stems`). A reset hides every replay
but the settings, those that give a constant new contents or stop a node, and it does not matter
whether a setting is made before the reset or after it (`replay_reset`). So what a reset leaves of a
history are its settings, and of these only what was set last (`Procedure.restart`).
-/

namespace GradientReplay

variable {α : Type}

/-- Does the replay give a constant new contents, or stop a node or let it take gradients again? -/
def Replay.isSetting : Replay α → Bool
  | updateConstant _ | setStopped _ _ => true
  | _ => false

/-! ### What is told by the plan -/

theorem Nodes.map_of_profiles {β : Type} {view : Node α → β} (told : Node.Profile → β)
    (through : ∀ n : Node α, view n = told n.profile) {nodes nodes' : Nodes α}
    (same : nodes'.profiles = nodes.profiles) : nodes'.map view = nodes.map view := by
  have by_profiles (ns : Nodes α) : ns.map view = ns.profiles.map told := by
    simp [profiles, Function.comp_def, through]
  rw [by_profiles, same, ← by_profiles]

theorem Link.map_of_ends {β : Type} {view : Link α → β} (told : NodeId × NodeId → β)
    (through : ∀ l : Link α, view l = told l.ends) {links links' : List (Link α)}
    (same : links'.map ends = links.map ends) : links'.map view = links.map view := by
  have by_ends (ls : List (Link α)) : ls.map view = (ls.map ends).map told := by
    simp [Function.comp_def, through]
  rw [by_ends, same, ← by_ends]

namespace Procedure

section Told

variable {p q : Procedure α} (same : q.plan = p.plan)

include same

/-- Procedures of one plan differ in the links and the nodes only. -/
theorem eq_of_plan : q = { p with links := q.links, nodes := q.nodes } := by
  cases p
  cases q
  simp only [plan, Plan.mk.injEq] at same
  obtain ⟨rfl, rfl, rfl, rfl, rfl, -, -, rfl⟩ := same
  rfl

theorem nodeOf_of_plan (tensor : TensorId) : q.nodeOf tensor = p.nodeOf tensor := by
  rw [eq_of_plan same]
  rfl

theorem describe_of_plan : q.describe = p.describe := by
  have nodes : q.nodes.map Descriptor.NodeEntry.ofNode = p.nodes.map Descriptor.NodeEntry.ofNode :=
    Nodes.map_of_profiles (fun c => Descriptor.NodeEntry.mk c.id.toUInt64 (c.shape.map Nat.toUInt64)
      c.constant (c.origin.map Nat.toUInt64)) (fun _ => rfl) (congrArg Plan.nodes same)
  have links : q.links.map Descriptor.LinkEntry.ofLink = p.links.map Descriptor.LinkEntry.ofLink :=
    Link.map_of_ends (fun e => Descriptor.LinkEntry.mk e.1.toUInt64 e.2.toUInt64) (fun _ => rfl)
      (congrArg Plan.links same)
  rw [eq_of_plan same]
  simp only [describe, nodes, links]

theorem expressionChain_of_plan : q.expressionChain = p.expressionChain := by
  rw [eq_of_plan same]
  rfl

theorem gradientChain_of_plan : q.gradientChain = p.gradientChain := by
  rw [eq_of_plan same]
  rfl

theorem countLine_of_plan : q.countLine = p.countLine := by
  have constants : q.nodes.map (·.constant) = p.nodes.map (·.constant) :=
    Nodes.map_of_profiles (·.constant) (fun _ => rfl) (congrArg Plan.nodes same)
  have length : q.nodes.length = p.nodes.length := by
    simpa using congrArg List.length constants
  have count (ns : Nodes α) :
      (ns.filter (·.constant)).length = ((ns.map (·.constant)).filter id).length := by
    rw [List.filter_map, List.length_map]
    rfl
  rw [eq_of_plan same]
  simp only [countLine, length, count, constants]

theorem summary_of_plan : q.summary = p.summary := by
  have texts : (q.links.map fun link => "  " ++ linkText link) =
      p.links.map fun link => "  " ++ linkText link :=
    Link.map_of_ends (fun e => "  " ++ (NodeId.text e.1 ++ " -> " ++ NodeId.text e.2))
      (fun _ => rfl) (congrArg Plan.links same)
  have linked : q.hasLinks = p.hasLinks := by
    have empty (ls : List (Link α)) : ls.isEmpty = (ls.map Link.ends).isEmpty := by simp
    unfold hasLinks
    rw [empty, empty, show q.links.map Link.ends = p.links.map Link.ends from congrArg Plan.links same]
  have name : q.name = p.name := congrArg Plan.name same
  simp only [summary, summaryLines, texts, linked, name, countLine_of_plan same,
    expressionChain_of_plan same, gradientChain_of_plan same]

end Told

end Procedure

/-! ### What no replay changes in a node -/

/-- The second node is the first one after replays, if that held nothing. -/
structure Node.Stems (c n : Node α) : Prop where
  profile : n.profile = c.profile
  reference : c.constant = false → n.reference = c.reference
  values : c.constant = true → n.values = .empty

namespace Node.Stems

variable {c n : Node α}

theorem constant (h : c.Stems n) : n.constant = c.constant := congrArg Profile.constant h.profile

theorem setValue (h : c.Stems n) (i : Index) (v : Tensor α) : c.Stems (n.setValue i v) := by
  unfold Node.setValue
  split
  · exact h
  · rename_i varies
    refine ⟨h.profile, h.reference, fun const => ?_⟩
    exact absurd (h.constant.trans const) varies

theorem setGradient (h : c.Stems n) (i : Index) (g : Tensor α) : c.Stems (n.setGradient i g) :=
  ⟨h.profile, h.reference, h.values⟩

theorem reset (h : c.Stems n) : c.Stems n.reset := ⟨h.profile, h.reference, fun _ => rfl⟩

theorem resetIndex (h : c.Stems n) (i : Index) : c.Stems (n.resetIndex i) := by
  refine ⟨h.profile, h.reference, fun isConstant => ?_⟩
  simp only [Node.resetIndex, h.values isConstant]
  rfl

theorem setReference (h : c.Stems n) (const : n.constant = true) {v : Tensor α}
    (shape : n.shape = v.shape) : c.Stems { n with reference := v } := by
  refine ⟨?_, fun varies => ?_, h.values⟩
  · rw [← h.profile]
    simp only [Node.profile, Node.shape] at shape ⊢
    rw [shape]
  · rw [← h.constant, const] at varies
    cases varies

theorem setStopped (h : c.Stems n) (stopped : Bool) : c.Stems (n.setStopped stopped) :=
  ⟨h.profile, h.reference, h.values⟩

/-- Of what replays make of a node, no more is left after a reset than the reference of a constant
and whether it is stopped. -/
theorem reset_eq {m : Node α} (h : c.Stems n) (h' : c.Stems m)
    (reference : c.constant = true → n.reference = m.reference) (stopped : n.stopped = m.stopped) :
    n.reset = m.reset := by
  have same : n.reference = m.reference := by
    cases const : c.constant with
    | true => exact reference const
    | false => rw [h.reference const, h'.reference const]
  have profile := h.profile.trans h'.profile.symm
  cases n
  cases m
  simp only [Node.profile, Profile.mk.injEq] at profile
  obtain ⟨rfl, -, rfl, rfl, rfl⟩ := profile
  simp only [Node.reset] at same stopped ⊢
  rw [same, stopped]

end Node.Stems

namespace Nodes

/-- Each node is the one in its place after replays. -/
def Stem (nodes nodes' : Nodes α) : Prop := List.Forall₂ Node.Stems nodes nodes'

theorem Stem.modify {nodes nodes' : Nodes α} (h : nodes.Stem nodes') {change : Node α → Node α}
    (keep : ∀ c n : Node α, c.Stems n → c.Stems (change n)) (m : NodeId) :
    nodes.Stem (nodes'.modify m change) := by
  induction h generalizing m with
  | nil => cases m <;> exact .nil
  | cons first rest ih =>
      cases m with
      | zero => exact .cons (keep _ _ first) rest
      | succ m => exact .cons first (ih m)

theorem Stem.map {nodes nodes' : Nodes α} (h : nodes.Stem nodes') {change : Node α → Node α}
    (keep : ∀ c n : Node α, c.Stems n → c.Stems (change n)) : nodes.Stem (nodes'.map change) :=
  List.forall₂_map_right_iff.mpr (h.imp keep)

/-- In its place, a node can be replaced by one that comes from the same nodes. -/
theorem Stem.set {nodes nodes' : Nodes α} (h : nodes.Stem nodes') {m : NodeId} {n n' : Node α}
    (found : nodes'[m]? = some n) (keep : ∀ c : Node α, c.Stems n → c.Stems n') :
    nodes.Stem (nodes'.set m n') := by
  induction h generalizing m with
  | nil => exact .nil
  | cons first rest ih =>
      cases m with
      | zero =>
          cases found
          exact .cons (keep _ first) rest
      | succ m => exact .cons first (ih found)

theorem Stem.getElem? {nodes nodes' : Nodes α} (h : nodes.Stem nodes') {m : NodeId} {c : Node α}
    (found : nodes[m]? = some c) : ∃ n, nodes'[m]? = some n ∧ c.Stems n := by
  induction h generalizing m with
  | nil => cases found
  | cons first rest ih =>
      cases m with
      | zero =>
          cases found
          exact ⟨_, rfl, first⟩
      | succ m => exact ih found

end Nodes

namespace Procedure

section Replay

variable [Zero α] [Add α] [Sub α] [Mul α] [Div α] [Neg α] [BEq α]

theorem replay_stems {nodes : Nodes α} {p : Procedure α} (h : nodes.Stem p.nodes) (r : Replay α) :
    nodes.Stem (p.replay r).nodes := by
  have forward (p : Procedure α) (i : Index) (x : Tensor α) (h : nodes.Stem p.nodes) :
      nodes.Stem (p.forward i x).state.nodes :=
    forward_preserves (fun _ m v h => h.modify (fun _ _ stems => stems.setValue i v) m) x h
  have backward (p : Procedure α) (i : Index) (g : Tensor α) (h : nodes.Stem p.nodes) :
      nodes.Stem (p.backward i g).state.nodes :=
    backward_preserves (fun _ m γ h => h.modify (fun _ _ stems => stems.setGradient i γ) m) g h
  cases r with
  | forward i x => exact forward p i x h
  | backward i g => exact backward p i g h
  | forwardSeries inputs =>
      exact forwardSeries_preserves (P := fun q : Procedure α => nodes.Stem q.nodes) forward h inputs
  | backwardSeries gradients steps =>
      exact backwardSeries_preserves (P := fun q : Procedure α => nodes.Stem q.nodes) backward h
        gradients steps
  | reset => exact h.map fun _ _ stems => stems.reset
  | resetIndex i => exact h.map fun _ _ stems => stems.resetIndex i
  | resetLinks => exact h
  | updateConstant x =>
      apply Outcome.ofExcept_preserves (P := fun q : Procedure α => nodes.Stem q.nodes) h
      intro q updated
      obtain ⟨m, n, found, const, shape, rfl⟩ := updateConstant_ok updated
      exact h.set found fun _ stems => stems.setReference const shape
  | setStopped tensor stopped =>
      apply Outcome.ofExcept_preserves (P := fun q : Procedure α => nodes.Stem q.nodes) h
      intro q updated
      obtain ⟨m, rfl⟩ := setStopped_ok updated
      exact h.modify (fun _ _ stems => stems.setStopped stopped) m

end Replay

end Procedure

/-! ### Resets -/

namespace Node

theorem reset_setValue (n : Node α) (i : Index) (v : Tensor α) : (n.setValue i v).reset = n.reset := by
  unfold setValue
  split <;> rfl

theorem reset_setGradient (n : Node α) (i : Index) (g : Tensor α) :
    (n.setGradient i g).reset = n.reset := rfl

theorem reset_setStopped (n : Node α) (stopped : Bool) :
    (n.setStopped stopped).reset = n.reset.setStopped stopped := rfl

/-- A constant gets new contents in whatever way the node is seen, if one sees that it is a constant,
which, and in what shape. -/
theorem setConstant_along (change : Node α → Node α)
    (along : ∀ (n : Node α) (v : Tensor α),
      change { n with reference := v } = { change n with reference := v })
    (profile : ∀ n : Node α, (change n).profile = n.profile) (n : Node α) (v : Tensor α) :
    (change n).setConstant v = (n.setConstant v).map change := by
  have id : (change n).id = n.id := congrArg Profile.id (profile n)
  have shape : (change n).shape = n.shape := congrArg Profile.shape (profile n)
  have constant : (change n).constant = n.constant := congrArg Profile.constant (profile n)
  by_cases const : n.constant = true
  · by_cases fits : n.shape = v.shape
    · have made (c : Node α) (const : c.constant = true) (fits : c.shape = v.shape) :
          c.setConstant v = .ok { c with reference := v } := by
        simp [setConstant, const, fits]
      rw [made n const fits, made _ (constant.trans const) (shape.trans fits), ← along]
      rfl
    · simp [setConstant, Except.map, id, constant, const, shape, fits]
  · simp [setConstant, Except.map, id, constant, const]

theorem reset_setConstant (n : Node α) (v : Tensor α) :
    n.reset.setConstant v = (n.setConstant v).map reset :=
  setConstant_along reset (fun _ _ => rfl) (fun _ => rfl) n v

end Node

theorem Link.map_reset_of_ends {links links' : List (Link α)}
    (same : links'.map ends = links.map ends) : links'.map reset = links.map reset :=
  map_of_ends (fun e => create e.1 e.2) (fun _ => rfl) same

namespace Procedure

/-- What keeps the ends of the links and all of the nodes but what they hold is hidden by a reset. -/
theorem reset_congr {p : Procedure α} {links : List (Link α)} {nodes : Nodes α}
    (ends : links.map Link.ends = p.links.map Link.ends)
    (rest : nodes.map Node.reset = p.nodes.map Node.reset) :
    reset { p with links, nodes } = p.reset := by
  simp only [reset, Link.map_reset_of_ends ends, rest]

theorem reset_reset (p : Procedure α) : p.reset.reset = p.reset := by
  simp [reset, Node.reset, Link.reset, Link.create, Function.comp_def]

theorem resetIndex_reset (p : Procedure α) (i : Index) : (p.resetIndex i).reset = p.reset := by
  simp [reset, resetIndex, Node.reset, Node.resetIndex, Function.comp_def]

theorem resetLinks_reset (p : Procedure α) : p.resetLinks.reset = p.reset := by
  simp [reset, resetLinks, Link.reset, Link.create, Function.comp_def]

theorem reset_getElem? (p : Procedure α) (m : NodeId) :
    p.reset.nodes[m]? = p.nodes[m]?.map Node.reset := List.getElem?_map

/-- A constant can be given new contents before a reset or after it. -/
theorem reset_updateConstant (p : Procedure α) (x : Operand α) :
    p.reset.updateConstant x = (p.updateConstant x).map reset := by
  have same : p.reset.nodeOf x.id = p.nodeOf x.id := rfl
  unfold updateConstant
  rw [same]
  cases p.nodeOf x.id with
  | error e => rfl
  | ok m =>
      simp only [bind, Except.bind, reset_getElem?]
      cases p.nodes[m]? with
      | none => rfl
      | some n =>
          simp only [Option.map_some, Node.reset_setConstant]
          cases n.setConstant x.tensor with
          | error e => rfl
          | ok n' => simp [Except.map, reset, List.map_set]

/-- A node can be stopped before a reset or after it. -/
theorem reset_setStopped (p : Procedure α) (tensor : TensorId) (stopped : Bool) :
    p.reset.setStopped tensor stopped = (p.setStopped tensor stopped).map reset := by
  have same : p.reset.nodeOf tensor = p.nodeOf tensor := rfl
  unfold setStopped
  rw [same]
  cases p.nodeOf tensor with
  | error e => rfl
  | ok m =>
      have nodes : (p.nodes.modify m (·.setStopped stopped)).map Node.reset =
          (p.nodes.map Node.reset).modify m (·.setStopped stopped) :=
        Nodes.map_modify_along (fun n => n.reset_setStopped stopped) p.nodes m
      simp only [bind, Except.bind, Except.map, reset, nodes]

section Replay

variable [Zero α] [Add α] [Sub α] [Mul α] [Div α] [Neg α] [BEq α]

omit [Neg α] in
theorem forward_reset (p : Procedure α) (i : Index) (x : Tensor α) :
    (p.forward i x).state.reset = p.reset := by
  have nodes : (p.forward i x).state.nodes.map Node.reset = p.nodes.map Node.reset :=
    forward_map (fun n v => n.reset_setValue i v) x
  rw [forward_state] at nodes ⊢
  exact reset_congr (Link.carryAll_ends i p.links p.nodes) nodes

theorem backward_reset (p : Procedure α) (i : Index) (g : Tensor α) :
    (p.backward i g).state.reset = p.reset := by
  have nodes : (p.backward i g).state.nodes.map Node.reset = p.nodes.map Node.reset :=
    backward_map (fun n γ => n.reset_setGradient i γ) g
  rw [backward_state]
  exact reset_congr (p.given_frame i g).1 nodes

/-- A reset hides every replay but the settings, which can be made after it instead. -/
theorem replay_reset (p : Procedure α) (r : Replay α) :
    (p.replay r).reset = if r.isSetting then p.reset.replay r else p.reset := by
  cases r with
  | forward i x => exact p.forward_reset i x
  | backward i g => exact p.backward_reset i g
  | forwardSeries inputs =>
      apply forwardSeries_preserves (P := fun q : Procedure α => q.reset = p.reset) _ rfl
      intro q i x h
      rw [q.forward_reset, h]
  | backwardSeries gradients steps =>
      apply backwardSeries_preserves (P := fun q : Procedure α => q.reset = p.reset) _ rfl
      intro q i g h
      rw [q.backward_reset, h]
  | reset => exact p.reset_reset
  | resetIndex i => exact p.resetIndex_reset i
  | resetLinks => exact p.resetLinks_reset
  | updateConstant x =>
      simp only [Replay.isSetting, if_true, replay, reset_updateConstant]
      cases p.updateConstant x <;> rfl
  | setStopped tensor stopped =>
      simp only [Replay.isSetting, if_true, replay, reset_setStopped]
      cases p.setStopped tensor stopped <;> rfl

/-- What is left of a history after a reset are its settings. -/
theorem foldl_replay_reset (p : Procedure α) (history : List (Replay α)) :
    (history.foldl replay p).reset = (history.filter Replay.isSetting).foldl replay p.reset := by
  induction history generalizing p with
  | nil => rfl
  | cons r history ih =>
      rw [List.foldl_cons, ih, replay_reset]
      cases setting : r.isSetting with
      | true => rw [if_pos rfl, List.filter_cons_of_pos setting, List.foldl_cons]
      | false => rw [if_neg Bool.false_ne_true, List.filter_cons_of_neg (by simp [setting])]

end Replay

end Procedure

/-! ### Compiled procedures -/

section Compiled

variable [Zero α] [Add α] [Sub α] [Mul α] [Div α] [BEq α] {p q f : Procedure α}

/-- The links of a compiled procedure have read nothing. -/
theorem Session.Compiled.links_reset (compiled : Session.Compiled p) :
    p.links.map Link.reset = p.links := by
  obtain ⟨s, output, reached, finished⟩ := compiled
  obtain ⟨recording, node, previous, current, -, -, rfl⟩ := Recorder.finish_ok finished
  refine (List.map_congr_left fun l hl => ?_).trans (List.map_id _)
  obtain ⟨-, -, e, -, fresh⟩ := stateLinks_cases hl
  rw [fresh]
  rfl

/-- A compiled procedure is as after a reset. -/
theorem Session.Compiled.reset (compiled : Session.Compiled p) : p.reset = p := by
  have nodes : p.nodes.map Node.reset = p.nodes := by
    refine (List.map_congr_left fun n hn => ?_).trans (List.map_id _)
    obtain ⟨values, gradients, -⟩ := compiled.blank n hn
    cases n
    cases values
    cases gradients
    rfl
  unfold Procedure.reset
  rw [nodes, compiled.links_reset]

theorem Session.Compiled.stem (compiled : Session.Compiled p) : p.nodes.Stem p.nodes := by
  refine List.forall₂_same.mpr fun n hn => ?_
  exact ⟨rfl, fun _ => rfl, fun _ => (compiled.blank n hn).1⟩

namespace Procedure

variable [Neg α]

theorem reaches_stems (compiled : Session.Compiled p) (reaches : p.Reaches q) :
    p.nodes.Stem q.nodes :=
  reaches.preserves (P := fun q : Procedure α => p.nodes.Stem q.nodes)
    (fun _ r h => replay_stems h r) compiled.stem

/-- After a reset, two states of the same procedure differ in nothing but the shared values of the
constants and in which nodes are stopped. -/
theorem reset_unique (compiled : Session.Compiled p) (reaches : p.Reaches q) (reaches' : p.Reaches f)
    (constants : ∀ n, p.plan.Constant n → f.nodes.referenceAt n = q.nodes.referenceAt n)
    (stopped : f.nodes.map (·.stopped) = q.nodes.map (·.stopped)) : q.reset = f.reset := by
  have plan : q.plan = f.plan := (reaches_plan reaches).trans (reaches_plan reaches').symm
  -- In each place both have a node that comes from the same compiled one.
  have nodes : q.nodes.map Node.reset = f.nodes.map Node.reset := by
    refine List.ext_getElem? fun k => ?_
    have stem := reaches_stems compiled reaches
    have stem' := reaches_stems compiled reaches'
    rw [List.getElem?_map, List.getElem?_map]
    cases hc : p.nodes[k]? with
    | none =>
        have outside := List.getElem?_eq_none_iff.mp hc
        rw [List.getElem?_eq_none (stem.length_eq ▸ outside),
          List.getElem?_eq_none (stem'.length_eq ▸ outside)]
    | some c =>
        obtain ⟨n, hn, stems⟩ := stem.getElem? hc
        obtain ⟨m, hm, stems'⟩ := stem'.getElem? hc
        have flags := Nodes.getElem?_map_of_eq stopped k
        rw [hn, hm] at flags
        rw [hn, hm, Option.map_some, Option.map_some]
        refine congrArg some (stems.reset_eq stems' (fun const => ?_) (Option.some.inj flags).symm)
        have same := constants k ⟨c.profile, by rw [plan_nodes_getElem?, hc]; rfl, const⟩
        rw [Nodes.referenceAt_of_getElem? hn, Nodes.referenceAt_of_getElem? hm] at same
        exact same.symm
  have ends := congrArg Plan.links plan
  have same := reset_congr ends nodes
  rw [← eq_of_plan plan] at same
  exact same

/-- Whatever is done to a compiled procedure, its texts, its descriptor and its answers to what is
asked for by tensor stay, and a constant holds nothing at an index and keeps its shape. A reset leaves
of all that was done the settings. So it comes to the freshly compiled procedure with any settings that
lead to the same constants and the same stopped nodes, and from there the same replays have the same
answers and leave the same states. -/
theorem restart (compiled : Session.Compiled p) (history : List (Replay α)) :
    let q := history.foldl replay p
    (q.describe = p.describe ∧ q.expressionChain = p.expressionChain ∧
        q.gradientChain = p.gradientChain ∧ q.summary = p.summary ∧
        ∀ tensor, q.nodeOf tensor = p.nodeOf tensor) ∧
      (∀ (n : NodeId) (c : Node α), p.nodes[n]? = some c → c.constant = true →
        ∃ c', q.nodes[n]? = some c' ∧ c'.constant = true ∧ c'.values = .empty ∧
          c'.shape = c.shape) ∧
      q.reset = (history.filter Replay.isSetting).foldl replay p ∧
      ∀ settings : List (Replay α), (∀ r ∈ settings, r.isSetting) →
        let f := settings.foldl replay p
        (∀ n, p.plan.Constant n → f.nodes.referenceAt n = q.nodes.referenceAt n) →
        f.nodes.map (·.stopped) = q.nodes.map (·.stopped) →
        q.reset = f ∧ ∀ further, q.reset.transcript further = f.transcript further := by
  intro q
  have reaches : p.Reaches q := ⟨history, rfl⟩
  have plan := reaches_plan reaches
  have left : q.reset = (history.filter Replay.isSetting).foldl replay p := by
    rw [foldl_replay_reset, compiled.reset]
  refine ⟨⟨describe_of_plan plan, expressionChain_of_plan plan, gradientChain_of_plan plan,
    summary_of_plan plan, nodeOf_of_plan plan⟩, fun n c found const => ?_, left, ?_⟩
  · obtain ⟨c', found', stems⟩ := (reaches_stems compiled reaches).getElem? found
    exact ⟨c', found', stems.constant.trans const, stems.values const,
      congrArg Node.Profile.shape stems.profile⟩
  · intro settings only f constants stopped
    have kept : f.reset = f := by
      rw [foldl_replay_reset, compiled.reset, List.filter_eq_self.mpr only]
    have same : q.reset = f :=
      (reset_unique compiled reaches ⟨settings, rfl⟩ constants stopped).trans kept
    refine ⟨same, fun further => ?_⟩
    rw [same]

end Procedure

end Compiled

/-- Two builds of `y = y * w + x` with the old `y`, the second not ended yet. -/
def decaySession : Session Int :=
  (Session.start "decay").run
    [.hold (.fill [1] 3), .hold (.fill [1] 2), .hold (.fill [1] 0), .register [1],
      .begin 0, .compute (.arithmetic .multiply 2 1), .compute (.arithmetic .add 3 0), .finish 4,
      .begin 0, .compute (.arithmetic .multiply 4 1), .compute (.arithmetic .add 5 0)]

/-- What these builds compile to. -/
def decayProcedure : Procedure Int where
  name := "decay"
  forwardOrder := [⟨0, .arithmetic .multiply 1 2, 3⟩, ⟨1, .arithmetic .add 3 0, 4⟩]
  backwardOrder := [⟨1, .arithmetic .add 3 0, 4⟩, ⟨0, .arithmetic .multiply 1 2, 3⟩]
  input := 0
  output := 4
  links := [.create 4 1]
  nodes :=
    [.create 0 (.fill [1] 3) false 1 (.leaf 0), .create 1 (.fill [1] 3) false 0 (.carried 1),
      .create 2 (.fill [1] 2) true 1 (.leaf 0), .create 3 (.fill [1] 6) false 1 (.result 0),
      .create 4 (.fill [1] 9) false 1 (.result 1)]
  bound := [(6, 4), (0, 0), (1, 2)]

theorem decay_compiled : Session.Compiled decayProcedure :=
  ⟨decaySession, 6, ⟨"decay", _, rfl⟩, rfl⟩

/-- After two steps forward and one back, an input that does not fit and a factor that does not, the
factor is 5 and takes no gradients. After the reset that is all that is left, whatever it was set to on
the way. -/
theorem decay_restarted :
    Session.Compiled decayProcedure ∧
      let q := [.updateConstant ⟨1, .fill [1] 4⟩, .setStopped 0 true, .forward 0 (.fill [2] 1),
        .forward 1 (.fill [2] 1), .backward 1 (.fill [2] 1), .setStopped 1 true,
        .setStopped 0 false, .forward 2 (.fill [3] 1), .updateConstant ⟨1, .fill [2] 7⟩,
        .updateConstant ⟨1, .fill [1] 5⟩].foldl Procedure.replay decayProcedure
      let f := [.setStopped 1 true, .updateConstant ⟨1, .fill [1] 5⟩].foldl Procedure.replay
        decayProcedure
      q.nodes.value? 4 1 = some (.fill [2] 5) ∧ q.nodes.gradient? 2 1 = some (.fill [1] 4) ∧
        q.links.map (·.lastValue) = [some (.fill [2] 5)] ∧
        (q.forward 2 (.fill [1] 0)).state.nodes.value? 4 2 = some (.fill [2] 25) ∧
        q.reset = f ∧ ∀ further, q.reset.transcript further = f.transcript further := by
  refine ⟨decay_compiled, rfl, rfl, rfl, rfl, ?_⟩
  obtain ⟨-, -, -, restarted⟩ := Procedure.restart decay_compiled _
  refine restarted [.setStopped 1 true, .updateConstant ⟨1, .fill [1] 5⟩] (by decide) ?_ rfl
  intro n _
  match n with
  | 0 | 1 | 2 | 3 | 4 | _ + 5 => rfl

end GradientReplay
