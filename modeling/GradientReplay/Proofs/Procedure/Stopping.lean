import GradientReplay.Proofs.Procedure.Restart

/-!
Stopping the gradients of a leaf.

A leaf, which is a constant or the input, is the result of no expression and the consumer of no link,
so its gradient is read by no rule. Stopped, it takes no contributions. So a procedure in which it is
stopped is the procedure in which it is not, seen with other gradients in this one node (`mute`), and
stays so under all replays that succeed (`Procedure.stopped_alone`).
-/

namespace GradientReplay

variable {α : Type}

/-! ### Nodes with one of them stopped -/

/-- The node, stopped, with other gradients. -/
def Node.muted (γs : Series (Tensor α)) (c : Node α) : Node α :=
  { c with stopped := true, gradients := γs }

/-- The gradients of a stopped node once a gradient was set at an index, of the node itself or of
another one. -/
def Node.overwritten (itself : Bool) (γs : Series (Tensor α)) (entry : Index × Tensor α) :
    Series (Tensor α) :=
  if itself then γs.insert entry.1 entry.2 else γs

theorem Node.muted_setValue (c : Node α) (γs : Series (Tensor α)) (i : Index) (v : Tensor α) :
    (c.muted γs).setValue i v = (c.setValue i v).muted γs := by
  cases const : c.constant <;> simp [setValue, muted, const]

theorem Node.muted_reset (c : Node α) (γs : Series (Tensor α)) :
    (c.muted γs).reset = c.reset.muted .empty := rfl

theorem Node.muted_resetIndex (c : Node α) (γs : Series (Tensor α)) (i : Index) :
    (c.muted γs).resetIndex i = (c.resetIndex i).muted (γs.erase i) := rfl

theorem Node.muted_setConstant (c : Node α) (γs : Series (Tensor α)) (v : Tensor α) :
    (c.muted γs).setConstant v = (c.setConstant v).map (muted γs) :=
  setConstant_along (muted γs) (fun _ _ => rfl) (fun _ => rfl) c v

namespace Nodes

/-- The nodes, one of them stopped and with other gradients. -/
def mute (n : NodeId) (γs : Series (Tensor α)) (nodes : Nodes α) : Nodes α :=
  nodes.modify n (Node.muted γs)

section Views

variable (nodes : Nodes α) (n : NodeId) (γs : Series (Tensor α)) {m : NodeId}

theorem getElem?_mute_self : (nodes.mute n γs)[n]? = nodes[n]?.map (Node.muted γs) :=
  List.getElem?_modify_eq _ n nodes

theorem getElem?_mute_of_ne (ne : m ≠ n) : (nodes.mute n γs)[m]? = nodes[m]? :=
  List.getElem?_modify_ne _ nodes ne.symm

@[simp] theorem value?_mute (m : NodeId) (j : Index) :
    (nodes.mute n γs).value? m j = nodes.value? m j := by
  unfold value?
  by_cases here : m = n
  · subst here
    rw [getElem?_mute_self]
    cases nodes[m]? <;> rfl
  · rw [getElem?_mute_of_ne nodes n γs here]

theorem gradient?_mute_of_ne (ne : m ≠ n) (j : Index) :
    (nodes.mute n γs).gradient? m j = nodes.gradient? m j := by
  unfold gradient?
  rw [getElem?_mute_of_ne nodes n γs ne]

theorem gradient?_mute_self {c : Node α} (found : nodes[n]? = some c) (j : Index) :
    (nodes.mute n γs).gradient? n j = γs.get? j := by
  unfold gradient?
  rw [getElem?_mute_self, found]
  rfl

@[simp] theorem shapeOf_mute (m : NodeId) :
    Link.shapeOf (nodes.mute n γs) m = Link.shapeOf nodes m := by
  have keep (c : Node α) : (c.muted γs).profile = c.profile := rfl
  exact shapeOf_of_profiles (map_modify keep nodes n) m

@[simp] theorem readValue_mute (i : Index) :
    (nodes.mute n γs).readValue i = nodes.readValue i := by
  funext m
  exact readValue_congr (value?_mute nodes n γs m i)

theorem readGradient_mute_of_ne (ne : m ≠ n) (i : Index) :
    (nodes.mute n γs).readGradient i m = nodes.readGradient i m := by
  unfold readGradient
  rw [gradient?_mute_of_ne nodes n γs ne]

end Views

section Changes

variable (nodes : Nodes α) (n m : NodeId) (γs : Series (Tensor α))

/-- A change that has nothing to do with gradients. -/
theorem mute_modify {change : Node α → Node α}
    (along : ∀ c : Node α, change (c.muted γs) = (change c).muted γs) :
    (nodes.mute n γs).modify m change = mute n γs (nodes.modify m change) := by
  unfold mute
  by_cases here : n = m
  · subst here
    rw [List.modify_modify_eq, List.modify_modify_eq]
    exact congrArg (nodes.modify n) (funext along)
  · exact List.modify_modify_ne _ _ nodes here

/-- A change of another node. -/
theorem mute_modify_of_ne (change : Node α → Node α) (ne : m ≠ n) :
    (nodes.mute n γs).modify m change = mute n γs (nodes.modify m change) :=
  List.modify_modify_ne _ _ nodes ne.symm

theorem mute_setValue (i : Index) (v : Tensor α) :
    (nodes.mute n γs).setValue m i v = (nodes.setValue m i v).mute n γs :=
  mute_modify nodes n m γs fun c => c.muted_setValue γs i v

theorem mute_setGradient (i : Index) (g : Tensor α) :
    (nodes.mute n γs).setGradient m i g =
      (nodes.setGradient m i g).mute n (Node.overwritten (n == m) γs (i, g)) := by
  unfold mute setGradient Node.overwritten
  by_cases here : n = m
  · subst here
    rw [List.modify_modify_eq, List.modify_modify_eq, beq_self_eq_true, if_pos rfl]
    rfl
  · rw [beq_eq_false_iff_ne.mpr here, if_neg Bool.false_ne_true]
    exact List.modify_modify_ne _ _ nodes here

theorem mute_set_self (c : Node α) :
    (nodes.mute n γs).set n (c.muted γs) = mute n γs (nodes.set n c) := by
  unfold mute
  rw [List.set_eq_modify, List.set_eq_modify, List.modify_modify_eq, List.modify_modify_eq]
  rfl

theorem mute_set_of_ne (c : Node α) (ne : m ≠ n) :
    (nodes.mute n γs).set m c = mute n γs (nodes.set m c) := by
  rw [List.set_eq_modify, List.set_eq_modify]
  exact mute_modify_of_ne nodes n m γs _ ne

/-- What a stopped node was given is not seen. -/
theorem setGradient_mute (i : Index) (g : Tensor α) :
    (nodes.setGradient n i g).mute n γs = nodes.mute n γs := by
  unfold mute setGradient
  rw [List.modify_modify_eq]
  rfl

end Changes

section Contributions

variable [Zero α] [Add α] [Sub α] [Neg α] {nodes nodes' : Nodes α} {m : NodeId}

/-- A contribution that is made is made where a node is stopped, only not to this node. -/
theorem accumulate_mute (n : NodeId) (γs : Series (Tensor α)) {i : Index} {sign : Sign} {g : Tensor α}
    (made : nodes.accumulate m i sign g = .ok nodes') :
    (nodes.mute n γs).accumulate m i sign g = .ok (nodes'.mute n γs) := by
  by_cases here : m = n
  · -- The node itself takes nothing, and what it takes in the other nodes is not seen.
    subst here
    have closed : ¬ (nodes.mute m γs).Takes m := by
      rintro ⟨c, found, taking⟩
      rw [getElem?_mute_self] at found
      obtain ⟨c', -, rfl⟩ := Option.map_eq_some_iff.mp found
      cases taking
    rw [accumulate_of_not_takes closed]
    rcases accumulate_cases made with ⟨-, rfl⟩ | ⟨c, γ, -, -, -, rfl⟩
    · rfl
    · rw [setGradient_mute]
  · have found := getElem?_mute_of_ne nodes n γs here
    rcases accumulate_cases made with ⟨closed, rfl⟩ | ⟨c, γ, hc, taking, combined, rfl⟩
    · have closed' : ¬ (nodes'.mute n γs).Takes m := by
        unfold Takes
        rw [found]
        exact closed
      exact accumulate_of_not_takes closed' i sign g
    · rw [accumulate_of_takes (found.trans hc) taking, combined]
      exact congrArg Except.ok (mute_modify_of_ne nodes n m γs _ here)

end Contributions

end Nodes

/-! ### Links and rules -/

section Links

variable [Zero α]

theorem Link.carry_mute (link : Link α) (i : Index) (nodes : Nodes α) (n : NodeId)
    (γs : Series (Tensor α)) :
    link.carry i (nodes.mute n γs) =
      ((link.carry i nodes).1, (link.carry i nodes).2.mute n γs) := by
  have read : (nodes.mute n γs).value? link.producer = nodes.value? link.producer :=
    funext fun j => nodes.value?_mute n γs link.producer j
  simp only [carry, read, Nodes.shapeOf_mute, Nodes.mute_setValue]

theorem Link.carryAll_mute (i : Index) (links : List (Link α)) (nodes : Nodes α) (n : NodeId)
    (γs : Series (Tensor α)) :
    carryAll i links (nodes.mute n γs) =
      ((carryAll i links nodes).1, (carryAll i links nodes).2.mute n γs) := by
  induction links generalizing nodes with
  | nil => rfl
  | cons link links ih => simp only [carryAll, carry_mute, ih]

variable [Add α] [Sub α] [Neg α]

/-- A link that gives back to its producer gives back where another node than its consumer is
stopped. -/
theorem Link.giveBack_mute {link : Link α} {i : Index} {nodes : Nodes α} {n : NodeId}
    (γs : Series (Tensor α)) (apart : link.consumer ≠ n)
    (ok : (link.giveBack i nodes).result = .ok ()) :
    link.giveBack i (nodes.mute n γs) =
      (link.giveBack i nodes).embed fun s => (s.1, s.2.mute n γs) := by
  obtain ⟨below, given⟩ := giveBack_ok ok
  have made := Nodes.accumulate_mute n γs given
  have read : i.next?.bind ((nodes.mute n γs).gradient? link.consumer) =
      i.next?.bind (nodes.gradient? link.consumer) :=
    Index.next?_bind_congr fun j _ => Nodes.gradient?_mute_of_ne nodes n γs apart j
  have same : link.handed i (nodes.mute n γs) = link.handed i nodes := by
    simp only [handed, read, Nodes.shapeOf_mute]
  have muted : link.giveBack i (nodes.mute n γs) =
      .done ((link.giveBack i nodes).state.1, (link.giveBack i nodes).state.2.mute n γs) () := by
    rw [giveBack_of_ne below, giveBack_link_of_ne below, same, read, made]
    rfl
  rw [muted]
  exact Outcome.ext rfl ok.symm

theorem Link.giveBackAll_mute {i : Index} {links : List (Link α)} {nodes : Nodes α} {n : NodeId}
    (γs : Series (Tensor α)) (apart : ∀ l ∈ links, l.consumer ≠ n)
    (ok : (giveBackAll i links nodes).result = .ok ()) :
    giveBackAll i links (nodes.mute n γs) =
      (giveBackAll i links nodes).embed fun s => (s.1, s.2.mute n γs) := by
  induction links generalizing nodes with
  | nil => rfl
  | cons link links ih =>
      rw [giveBackAll_cons] at ok
      rw [giveBackAll_cons, giveBackAll_cons]
      cases first : (link.giveBack i nodes).result with
      | error e =>
          rw [first] at ok
          cases ok
      | ok b =>
          rw [first] at ok
          have here := giveBack_mute γs (apart link List.mem_cons_self) first
          have rest := ih (fun l hl => apart l (List.mem_cons_of_mem link hl)) ok
          simp only [here, Outcome.embed_result, Outcome.embed_state, first, rest]
          rfl

end Links

section Rules

variable [Zero α] [Add α] [Sub α] [Mul α] [Div α] [BEq α]

theorem Expression.forward_mute (e : Expression α) (i : Index) (nodes : Nodes α) (n : NodeId)
    (γs : Series (Tensor α)) :
    e.forward i (nodes.mute n γs) = (e.forward i nodes).map (Nodes.mute n γs) := by
  have evaluate : e.evaluate i (nodes.mute n γs) = e.evaluate i nodes :=
    evaluate_congr fun a _ => nodes.value?_mute n γs a i
  unfold forward
  rw [evaluate]
  cases e.evaluate i nodes with
  | error cause => rfl
  | ok v => exact congrArg Except.ok (Nodes.mute_setValue nodes n e.result γs i v)

theorem Expression.forwardAll_mute (i : Index) (es : List (Expression α)) (nodes : Nodes α)
    (n : NodeId) (γs : Series (Tensor α)) :
    forwardAll i es (nodes.mute n γs) = (forwardAll i es nodes).embed (Nodes.mute n γs) := by
  apply Outcome.each_embed
  intro ns e
  rw [forward_mute, Outcome.ofExcept_map]

variable [Neg α]

/-- A rule that succeeds succeeds where another node than its result is stopped. -/
theorem Expression.backward_mute {e : Expression α} {i : Index} {nodes : Nodes α} {n : NodeId}
    (γs : Series (Tensor α)) (apart : e.result ≠ n) (ok : (e.backward i nodes).result = .ok ()) :
    e.backward i (nodes.mute n γs) = (e.backward i nodes).embed (Nodes.mute n γs) := by
  have contributions : e.contributions i (nodes.mute n γs) = e.contributions i nodes := by
    simp only [Expression.contributions, Nodes.readValue_mute,
      Nodes.readGradient_mute_of_ne nodes n γs apart]
  obtain ⟨cs, made, each⟩ := backward_ok ok
  rw [each] at ok ⊢
  unfold backward
  rw [contributions, made]
  apply Outcome.each_embed_of_ok _ ok
  intro ns c _ ok
  exact Outcome.ofExcept_embed_of_ok ok fun _ => Nodes.accumulate_mute n γs

theorem Expression.backwardAll_mute {i : Index} {es : List (Expression α)} {nodes : Nodes α}
    {n : NodeId} (γs : Series (Tensor α)) (apart : ∀ e ∈ es, e.result ≠ n)
    (ok : (backwardAll i es nodes).result = .ok ()) :
    backwardAll i es (nodes.mute n γs) = (backwardAll i es nodes).embed (Nodes.mute n γs) := by
  apply Outcome.each_embed_of_ok _ ok
  intro ns e he ok
  exact backward_mute γs (apart e he) ok

end Rules

/-! ### Replays with a stopped node -/

/-- Neither a rule nor a link reads the gradient of the node. -/
def Plan.Ignores (P : Plan α) (n : NodeId) : Prop :=
  (∀ e ∈ P.backwardOrder, e.result ≠ n) ∧ n ∉ P.links.map Prod.snd

/-- The gradient of a leaf is not read. -/
theorem Plan.Valid.ignores {P : Plan α} (valid : P.Valid) {n : NodeId}
    (leaf : P.Constant n ∨ n = P.input) : P.Ignores n := by
  constructor
  · intro e he same
    obtain ⟨ne, computed⟩ := valid.results e (valid.backward_subset he)
    rcases leaf with constant | isInput
    · exact computed.not_constant (same ▸ constant)
    · exact ne (same.trans isInput)
  · intro fed
    obtain ⟨link, mem, rfl⟩ := List.mem_map.mp fed
    have carried := valid.consumers link mem
    rcases leaf with constant | isInput
    · exact carried.not_constant constant
    · exact valid.input.not_carried (isInput ▸ carried)

/-- The gradients of a stopped node after a replay: those it had, without those that were forgotten,
and with those that it was given as the output. -/
def Replay.left (isOutput : Bool) (γs : Series (Tensor α)) : Replay α → Series (Tensor α)
  | backward i gradient => Node.overwritten isOutput γs (i, gradient)
  | backwardSeries gradients steps =>
      (gradients.entries.reverse.take (Procedure.stepCount steps gradients.size)).foldl
        (Node.overwritten isOutput) γs
  | reset => .empty
  | resetIndex i => γs.erase i
  | forward _ _ | forwardSeries _ | resetLinks | updateConstant _ | setStopped _ _ => γs

namespace Procedure

/-- The procedure with a node stopped and with other gradients in it. -/
def mute (n : NodeId) (γs : Series (Tensor α)) (p : Procedure α) : Procedure α :=
  { p with nodes := p.nodes.mute n γs }

section Forward

variable [Zero α] [Add α] [Sub α] [Mul α] [Div α] [BEq α]

theorem forward_mute (p : Procedure α) (i : Index) (x : Tensor α) (n : NodeId)
    (γs : Series (Tensor α)) : (p.mute n γs).forward i x = (p.forward i x).embed (mute n γs) := by
  have seeds : (p.mute n γs).seeded i x = (p.seeded i x).mute n γs := by
    simp only [seeded, mute, Link.carryAll_mute, Nodes.mute_setValue]
  have links : (Link.carryAll i (p.mute n γs).links (p.mute n γs).nodes).1 =
      (Link.carryAll i p.links p.nodes).1 := by
    simp only [mute, Link.carryAll_mute]
  have order : (p.mute n γs).forwardOrder = p.forwardOrder := rfl
  rw [forward_eq, forward_eq, seeds, links, order, Expression.forwardAll_mute]
  apply Outcome.ext
  · simp only [Outcome.andThen_done_state, Outcome.embed_state]
    rfl
  · simp only [Outcome.andThen_done_result, Outcome.embed_result]
    rfl

theorem forwardEntry_mute (p : Procedure α) (entry : Index × Tensor α) (n : NodeId)
    (γs : Series (Tensor α)) :
    (p.mute n γs).forwardEntry entry = (p.forwardEntry entry).embed (mute n γs) := by
  unfold forwardEntry
  rw [forward_mute]
  apply Outcome.embed_andThen
  intro out
  have value : ((p.forward entry.1 entry.2).state.mute n γs).outputValue entry.1 =
      (p.forward entry.1 entry.2).state.outputValue entry.1 :=
    congrFun (Nodes.readValue_mute _ n γs entry.1) _
  rw [value]
  rfl

theorem forwardSeries_mute (p : Procedure α) (inputs : Series (Tensor α)) (n : NodeId)
    (γs : Series (Tensor α)) :
    (p.mute n γs).forwardSeries inputs = (p.forwardSeries inputs).embed (mute n γs) := by
  have entries := Outcome.collect_embed (fun q entry => (forwardEntry_mute q entry n γs)) p
    inputs.entries
  unfold forwardSeries
  rw [entries]
  exact Outcome.embed_andThen fun _ => rfl

end Forward

section Changes

variable (p : Procedure α) (n : NodeId) (γs : Series (Tensor α))

theorem updateConstant_mute (x : Operand α) :
    (p.mute n γs).updateConstant x = (p.updateConstant x).map (mute n γs) := by
  have same : (p.mute n γs).nodeOf x.id = p.nodeOf x.id := rfl
  unfold updateConstant
  rw [same]
  cases p.nodeOf x.id with
  | error e => rfl
  | ok m =>
      simp only [bind, Except.bind, mute]
      by_cases here : m = n
      · subst here
        rw [Nodes.getElem?_mute_self]
        cases p.nodes[m]? with
        | none => rfl
        | some c =>
            simp only [Option.map_some, Node.muted_setConstant]
            cases c.setConstant x.tensor with
            | error e => rfl
            | ok c' => simp only [Except.map, Nodes.mute_set_self, mute]
      · rw [Nodes.getElem?_mute_of_ne _ _ _ here]
        cases p.nodes[m]? with
        | none => rfl
        | some c =>
            cases changed : c.setConstant x.tensor with
            | error e => simp only [changed, Except.map]
            | ok c' => simp only [changed, Except.map, Nodes.mute_set_of_ne _ _ _ _ _ here, mute]

variable {p n}

/-- Another node can be stopped, or let take gradients again. -/
theorem setStopped_mute {tensor : TensorId} (apart : p.nodeOf tensor ≠ .ok n) (stopped : Bool) :
    (p.mute n γs).setStopped tensor stopped = (p.setStopped tensor stopped).map (mute n γs) := by
  have same : (p.mute n γs).nodeOf tensor = p.nodeOf tensor := rfl
  unfold setStopped
  rw [same]
  cases found : p.nodeOf tensor with
  | error e => rfl
  | ok m =>
      have ne : m ≠ n := fun eq => apart (eq ▸ found)
      simp only [bind, Except.bind, Except.map, mute, Nodes.mute_modify_of_ne _ _ _ _ _ ne]

variable (p n)

theorem reset_mute : (p.mute n γs).reset = p.reset.mute n .empty := by
  have nodes : (p.nodes.mute n γs).map Node.reset = Nodes.mute n .empty (p.nodes.map Node.reset) :=
    Nodes.map_modify_along (fun c => c.muted_reset γs) p.nodes n
  simp only [reset, mute, nodes]

theorem resetIndex_mute (i : Index) :
    (p.mute n γs).resetIndex i = (p.resetIndex i).mute n (γs.erase i) := by
  have nodes : (p.nodes.mute n γs).map (·.resetIndex i) =
      Nodes.mute n (γs.erase i) (p.nodes.map (·.resetIndex i)) :=
    Nodes.map_modify_along (fun c => c.muted_resetIndex γs i) p.nodes n
  simp only [resetIndex, mute, nodes]

end Changes

section Replay

variable [Zero α] [Add α] [Sub α] [Mul α] [Div α] [Neg α] [BEq α] {p : Procedure α} {n : NodeId}
  (γs : Series (Tensor α))

/-- A replay back that succeeds succeeds with a leaf stopped. -/
theorem backward_mute (ignored : p.plan.Ignores n) {i : Index} {g : Tensor α} {out : NodeId}
    (ok : (p.backward i g).result = .ok out) :
    (p.mute n γs).backward i g =
      (p.backward i g).embed (mute n (Node.overwritten (n == p.output) γs (i, g))) := by
  let γs' := Node.overwritten (n == p.output) γs (i, g)
  obtain ⟨given, swept⟩ := backward_ok ok
  have apart : ∀ l ∈ p.links, l.consumer ≠ n := fun l hl same =>
    ignored.2 (same ▸ List.mem_map_of_mem (List.mem_map_of_mem hl))
  have given' : (p.mute n γs).given i g =
      (p.given i g).embed fun s => (s.1, s.2.mute n γs') := by
    have start : (p.mute n γs).nodes.setGradient p.output i g =
        (p.nodes.setGradient p.output i g).mute n γs' := Nodes.mute_setGradient _ _ _ _ _ _
    exact (congrArg _ start).trans (Link.giveBackAll_mute γs' apart given)
  have rules : ∀ e ∈ p.backwardOrder, e.result ≠ n := ignored.1
  have swept' := Expression.backwardAll_mute γs' rules swept
  have ok' : ((p.mute n γs).given i g).result = .ok () := by
    rw [given']
    exact given
  have order : (p.mute n γs).backwardOrder = p.backwardOrder := rfl
  obtain ⟨state, result⟩ := backward_of_given ok'
  apply Outcome.ext
  · rw [state, Outcome.embed_state, (backward_of_given given).1, order, given']
    simp only [Outcome.embed_state, swept']
    rfl
  · rw [result, Outcome.embed_result, (backward_of_given given).2, order, given']
    simp only [Outcome.embed_state, swept']
    rfl

/-- The answer may be another one: the gradient of the input, if this is the leaf. -/
theorem backwardEntry_mute (ignored : p.plan.Ignores n) {entry answer : Index × Tensor α}
    (ok : (p.backwardEntry entry).result = .ok answer) :
    ∃ answer', (p.mute n γs).backwardEntry entry =
      .done ((p.backwardEntry entry).state.mute n
        (Node.overwritten (n == p.output) γs entry)) answer' := by
  obtain ⟨out, back, -⟩ := Outcome.andThen_ok.mp ok
  have muted := backward_mute γs ignored back
  have state : ((p.mute n γs).backwardEntry entry).state =
      (p.backwardEntry entry).state.mute n (Node.overwritten (n == p.output) γs entry) := by
    rw [backwardEntry_state, backwardEntry_state, muted, Outcome.embed_state]
  obtain ⟨answer', result⟩ : ∃ answer', ((p.mute n γs).backwardEntry entry).result = .ok answer' :=
    ⟨_, Outcome.andThen_ok.mpr ⟨out, (congrArg Outcome.result muted).trans back, rfl⟩⟩
  exact ⟨answer', Outcome.ext state result⟩

/-- Going back over entries succeeds with a leaf stopped, where it succeeds without. -/
theorem collect_backward_mute (ignored : p.plan.Ignores n) {entries : List (Index × Tensor α)}
    {found : List (Index × Tensor α)}
    (ok : (Outcome.collect backwardEntry p entries).result = .ok found) :
    ∃ found', Outcome.collect backwardEntry (p.mute n γs) entries =
      .done ((Outcome.collect backwardEntry p entries).state.mute n
        (entries.foldl (Node.overwritten (n == p.output)) γs)) found' := by
  induction entries generalizing p γs found with
  | nil => exact ⟨[], rfl⟩
  | cons entry entries ih =>
      obtain ⟨⟨answer, first⟩, ⟨rest, later⟩, state⟩ := Outcome.collect_cons_ok ok
      have plan : (p.backwardEntry entry).state.plan = p.plan := by
        rw [backwardEntry_state, p.backward_plan]
      have output : (p.backwardEntry entry).state.output = p.output := congrArg Plan.output plan
      obtain ⟨answer', here⟩ := backwardEntry_mute γs ignored first
      obtain ⟨found', others⟩ :=
        ih (Node.overwritten (n == p.output) γs entry) (plan ▸ ignored) later
      have here_state := congrArg Outcome.state here
      rw [Outcome.done_state] at here_state
      rw [← here_state] at others
      refine ⟨answer' :: found', ?_⟩
      rw [Outcome.collect_cons_of_ok (congrArg Outcome.result here)
        (congrArg Outcome.result others), others, state, output]
      rfl

/-- A replay that succeeds succeeds with a leaf stopped, and leaves the same but for the gradients of
the leaf. -/
theorem perform_mute (ignored : p.plan.Ignores n) {r : Replay α}
    (apart : ∀ tensor stopped, r = .setStopped tensor stopped → p.nodeOf tensor ≠ .ok n)
    {answer : Answer α} (ok : (p.perform r).result = .ok answer) :
    (∃ answer', ((p.mute n γs).perform r).result = .ok answer') ∧
      (p.mute n γs).replay r = (p.replay r).mute n (r.left (n == p.output) γs) := by
  -- Where the answer is the same, the whole replay is seen through the view.
  have same (h : (p.mute n γs).perform r =
      (p.perform r).embed (mute n (r.left (n == p.output) γs))) :
      (∃ answer', ((p.mute n γs).perform r).result = .ok answer') ∧
        (p.mute n γs).replay r = (p.replay r).mute n (r.left (n == p.output) γs) := by
    rw [← perform_state, ← perform_state, h]
    exact ⟨⟨answer, ok⟩, rfl⟩
  cases r with
  | forward i x =>
      apply same
      simp only [perform, forward_mute]
      exact Outcome.embed_andThen fun _ => rfl
  | backward i g =>
      apply same
      obtain ⟨out, back, -⟩ := Outcome.andThen_ok.mp ok
      simp only [perform, backward_mute γs ignored back]
      exact Outcome.embed_andThen fun _ => rfl
  | forwardSeries inputs =>
      apply same
      simp only [perform, forwardSeries_mute]
      exact Outcome.embed_andThen fun _ => rfl
  | backwardSeries gradients steps =>
      obtain ⟨found, back, -⟩ := Outcome.andThen_ok.mp ok
      obtain ⟨found, went, -⟩ := Outcome.andThen_ok.mp back
      obtain ⟨found', eq⟩ := collect_backward_mute γs ignored went
      constructor
      · have series : ((p.mute n γs).backwardSeries gradients steps).result =
            .ok (.ofList found') :=
          Outcome.andThen_ok.mpr ⟨found', congrArg Outcome.result eq, rfl⟩
        exact ⟨_, Outcome.andThen_ok.mpr ⟨.ofList found', series, rfl⟩⟩
      · simp only [replay, backwardSeries, Outcome.andThen_done_state, eq, Outcome.done_state,
          Replay.left]
  | reset =>
      apply same
      simp only [perform, reset_mute]
      rfl
  | resetIndex i =>
      apply same
      simp only [perform, resetIndex_mute]
      rfl
  | resetLinks => exact same rfl
  | updateConstant x =>
      apply same
      simp only [perform, updateConstant_mute, Outcome.ofExcept_map]
      exact Outcome.embed_andThen fun _ => rfl
  | setStopped tensor stopped =>
      apply same
      simp only [perform, setStopped_mute γs (apart tensor stopped rfl), Outcome.ofExcept_map]
      exact Outcome.embed_andThen fun _ => rfl

/-- Every replay of the run succeeds. -/
def Succeeds : Procedure α → List (Replay α) → Prop
  | _, [] => True
  | p, r :: replays => (∃ answer, (p.perform r).result = .ok answer) ∧ (p.replay r).Succeeds replays

/-- A run that succeeds succeeds with a leaf stopped, and leaves the same after each replay but for
the gradients of the leaf. -/
theorem run_mute (ignored : p.plan.Ignores n) {replays : List (Replay α)}
    (apart : ∀ tensor stopped, .setStopped tensor stopped ∈ replays → p.nodeOf tensor ≠ .ok n)
    (succeeds : p.Succeeds replays) :
    (p.mute n γs).Succeeds replays ∧
      ∀ k, (replays.take k).foldl replay (p.mute n γs) =
        ((replays.take k).foldl replay p).mute n
          ((replays.take k).foldl (Replay.left (n == p.output)) γs) := by
  induction replays generalizing p γs with
  | nil =>
      refine ⟨trivial, fun k => ?_⟩
      rw [List.take_nil]
      rfl
  | cons r replays ih =>
      obtain ⟨⟨answer, ok⟩, rest⟩ := succeeds
      obtain ⟨here, state⟩ := perform_mute γs ignored (r := r)
        (fun tensor stopped eq => apart tensor stopped (eq ▸ List.mem_cons_self)) ok
      have plan := p.replay_plan r
      have output : (p.replay r).output = p.output := congrArg Plan.output plan
      have apart' : ∀ tensor stopped, .setStopped tensor stopped ∈ replays →
          (p.replay r).nodeOf tensor ≠ .ok n := by
        intro tensor stopped mem
        rw [nodeOf_of_plan plan]
        exact apart tensor stopped (List.mem_cons_of_mem r mem)
      obtain ⟨succeeds', states⟩ := ih (r.left (n == p.output) γs) (plan ▸ ignored) apart' rest
      refine ⟨⟨here, state ▸ succeeds'⟩, fun k => ?_⟩
      cases k with
      | zero => rfl
      | succ k =>
          rw [List.take_succ_cons, List.foldl_cons, List.foldl_cons, List.foldl_cons, state,
            states k, output]

end Replay

end Procedure

/-! ### What is left in a stopped node -/

/-- Unless it is the output, a stopped node holds after a replay no gradient that it did not hold
before. -/
theorem Replay.left_of_other {γs : Series (Tensor α)} {r : Replay α} {j : Index} {γ : Tensor α}
    (h : (r.left false γs).get? j = some γ) : γs.get? j = some γ := by
  cases r with
  | backward i g => exact h
  | backwardSeries gradients steps =>
      have kept (entries : List (Index × Tensor α)) :
          entries.foldl (Node.overwritten false) γs = γs := by
        induction entries with
        | nil => rfl
        | cons entry entries ih => exact ih
      rw [left, kept] at h
      exact h
  | reset =>
      rw [left, Series.get?_empty] at h
      cases h
  | resetIndex i =>
      rw [left, Series.get?_erase] at h
      split at h
      · cases h
      · exact h
  | forward | forwardSeries | resetLinks | updateConstant | setStopped => exact h

theorem foldl_left_of_other {γs : Series (Tensor α)} {replays : List (Replay α)} {j : Index}
    {γ : Tensor α} (h : (replays.foldl (Replay.left false) γs).get? j = some γ) :
    γs.get? j = some γ := by
  induction replays generalizing γs with
  | nil => exact h
  | cons r replays ih => exact Replay.left_of_other (ih h)

namespace Procedure

variable [Zero α] [Add α] [Sub α] [Mul α] [Div α] [Neg α] [BEq α] {p q : Procedure α} {n : NodeId}
  {tensor : TensorId}

/-- A procedure in which a node is stopped is the one in which it is not, seen with the gradients that
the node has. -/
theorem stopped_eq_mute {c : Node α} (found : q.nodes[n]? = some c)
    (bound : q.nodeOf tensor = .ok n) :
    q.replay (.setStopped tensor true) =
      (q.replay (.setStopped tensor false)).mute n c.gradients := by
  have set (stopped : Bool) : q.replay (.setStopped tensor stopped) =
      { q with nodes := q.nodes.modify n (·.setStopped stopped) } := by
    simp only [replay, setStopped, bound]
    rfl
  have nodes : q.nodes.modify n (·.setStopped true) =
      Nodes.mute n c.gradients (q.nodes.modify n (·.setStopped false)) := by
    rw [Nodes.mute, List.modify_modify_eq, List.modify_eq_set_getElem?,
      List.modify_eq_set_getElem?, found]
    rfl
  rw [set, set, nodes]
  rfl

omit [Zero α] [Add α] [Sub α] [Mul α] [Div α] [Neg α] [BEq α] in
/-- A leaf is a node. -/
theorem exists_leaf (valid : p.plan.Valid) (leaf : p.plan.Constant n ∨ n = p.input)
    (plan : q.plan = p.plan) : ∃ c, q.nodes[n]? = some c := by
  obtain ⟨profile, found⟩ : ∃ profile, q.plan.nodes[n]? = some profile := by
    rw [plan]
    rcases leaf with ⟨profile, found, -⟩ | isInput
    · exact ⟨profile, found⟩
    · obtain ⟨profile, found, -⟩ := valid.input
      exact ⟨profile, isInput ▸ found⟩
  rw [plan_nodes_getElem?] at found
  obtain ⟨c, here, -⟩ := Option.map_eq_some_iff.mp found
  exact ⟨c, here⟩

/-- To stop a leaf, a constant or the input, affects nothing else. If all replays of a run succeed
where it is not stopped, they succeed where it is, and after each of them all values, the gradients of
all other nodes and what the links remember are the same. Nothing is added to the gradients of the
leaf: they are forgotten at resets, and set only if the leaf is the output. -/
theorem stopped_alone (compiled : Session.Compiled p) (reaches : p.Reaches q)
    (bound : p.nodeOf tensor = .ok n) (leaf : p.plan.Constant n ∨ n = p.input)
    {replays : List (Replay α)}
    (apart : ∀ other stopped, .setStopped other stopped ∈ replays → p.nodeOf other ≠ .ok n)
    (succeeds : (q.replay (.setStopped tensor false)).Succeeds replays) :
    (q.replay (.setStopped tensor true)).Succeeds replays ∧
      ∃ c, q.nodes[n]? = some c ∧ ∀ k,
        let free := (replays.take k).foldl replay (q.replay (.setStopped tensor false))
        let stopped := (replays.take k).foldl replay (q.replay (.setStopped tensor true))
        (∀ m j, stopped.nodes.value? m j = free.nodes.value? m j) ∧
          (∀ m j, m ≠ n → stopped.nodes.gradient? m j = free.nodes.gradient? m j) ∧
          stopped.links = free.links ∧
          (∀ j, stopped.nodes.gradient? n j =
            ((replays.take k).foldl (Replay.left (n == p.output)) c.gradients).get? j) ∧
          (n ≠ p.output → ∀ j γ, stopped.nodes.gradient? n j = some γ →
            q.nodes.gradient? n j = some γ) := by
  have plan := reaches_plan reaches
  have plan' : (q.replay (.setStopped tensor false)).plan = p.plan :=
    (q.replay_plan _).trans plan
  have output : (q.replay (.setStopped tensor false)).output = p.output := congrArg Plan.output plan'
  obtain ⟨c, found⟩ := exists_leaf compiled.plan_valid leaf plan
  have muted := stopped_eq_mute found ((nodeOf_of_plan plan tensor).trans bound)
  obtain ⟨succeeds', states⟩ := run_mute c.gradients (plan' ▸ compiled.plan_valid.ignores leaf)
    (fun other stopped mem => (nodeOf_of_plan plan' other) ▸ apart other stopped mem) succeeds
  rw [← muted] at succeeds' states
  refine ⟨succeeds', c, found, fun k => ?_⟩
  intro free stopped
  let γs := (replays.take k).foldl (Replay.left (n == p.output)) c.gradients
  have state : stopped = free.mute n γs := by
    have seen := states k
    rw [output] at seen
    exact seen
  have held (j : Index) : stopped.nodes.gradient? n j = γs.get? j := by
    obtain ⟨c', found'⟩ := exists_leaf compiled.plan_valid leaf
      ((reaches_plan ⟨replays.take k, rfl⟩ : free.plan = _).trans plan')
    rw [state]
    exact Nodes.gradient?_mute_self _ n γs found' j
  refine ⟨fun m j => ?_, fun m j ne => ?_, ?_, held, fun other j γ now => ?_⟩
  · rw [state]
    exact Nodes.value?_mute _ n γs m j
  · rw [state]
    exact Nodes.gradient?_mute_of_ne _ n γs ne j
  · rw [state]
    rfl
  · have kept : γs.get? j = some γ := (held j).symm.trans now
    simp only [γs, beq_eq_false_iff_ne.mpr other] at kept
    rw [Nodes.gradient?_of_getElem? found]
    exact foldl_left_of_other kept

/-- A sequence forward and back, then the input stopped, the factor changed and one index done over. -/
def decayRun : List (Replay Int) :=
  [.forwardSeries (.ofList [(0, .fill [1] 1), (1, .fill [1] 2), (2, .fill [1] 3)]),
    .backwardSeries (.ofList [(0, .fill [1] 1), (1, .fill [1] 1), (2, .fill [1] 1)]) none,
    .setStopped 0 true, .updateConstant ⟨1, .fill [1] 5⟩, .resetIndex 1, .forward 1 (.fill [1] 4),
    .backward 1 (.fill [1] 2)]

/-- Where the factor `w` takes gradients, its gradient at the last index grows; where it is stopped,
the gradient that it had stays. All else is the same. -/
theorem decay_stopped :
    ∃ q, Session.Compiled decayProcedure ∧ decayProcedure.Reaches q ∧
      decayProcedure.nodeOf 1 = .ok 2 ∧ decayProcedure.plan.Constant 2 ∧
      (q.replay (.setStopped 1 false)).Succeeds decayRun ∧
      (q.replay (.setStopped 1 true)).Succeeds decayRun ∧
      let free := decayRun.foldl replay (q.replay (.setStopped 1 false))
      let stopped := decayRun.foldl replay (q.replay (.setStopped 1 true))
      (∀ m j, stopped.nodes.value? m j = free.nodes.value? m j) ∧
        (∀ m j, m ≠ 2 → stopped.nodes.gradient? m j = free.nodes.gradient? m j) ∧
        stopped.links = free.links ∧ stopped.nodes.value? 4 1 = some (.fill [1] 19) ∧
        free.nodes.gradient? 2 2 = some (.fill [1] 17) ∧
        stopped.nodes.gradient? 2 2 = some (.fill [1] 1) := by
  have reaches : decayProcedure.Reaches ([.forward 1 (.fill [1] 1), .forward 2 (.fill [1] 1),
    .backward 2 (.fill [1] 1)].foldl replay decayProcedure) := ⟨_, rfl⟩
  have constant : decayProcedure.plan.Constant 2 := ⟨_, rfl, rfl⟩
  have apart : ∀ other stopped, .setStopped other stopped ∈ decayRun →
      decayProcedure.nodeOf other ≠ .ok 2 := by
    intro other stopped mem
    simp only [decayRun, List.mem_cons, List.not_mem_nil, or_false, reduceCtorEq, false_or,
      Replay.setStopped.injEq] at mem
    obtain ⟨rfl, -⟩ := mem
    rintro ⟨⟩
  have succeeds : (([.forward 1 (.fill [1] 1), .forward 2 (.fill [1] 1),
      .backward 2 (.fill [1] 1)].foldl replay decayProcedure).replay
        (.setStopped 1 false)).Succeeds decayRun :=
    ⟨⟨_, rfl⟩, ⟨_, rfl⟩, ⟨_, rfl⟩, ⟨_, rfl⟩, ⟨_, rfl⟩, ⟨_, rfl⟩, ⟨_, rfl⟩, trivial⟩
  obtain ⟨succeeds', c, -, after⟩ := stopped_alone decay_compiled reaches rfl (.inl constant)
    apart succeeds
  obtain ⟨values, gradients, links, -, -⟩ := after 7
  exact ⟨_, decay_compiled, reaches, rfl, constant, succeeds, succeeds', values, gradients, links,
    rfl, rfl, rfl⟩

end Procedure

end GradientReplay
