import GradientReplay.Proofs.Procedure.Forward

/-!
Going back: which nodes come to hold a gradient, and how the rules can fail.

The rule of an expression hands contributions to its receivers: the first argument of a function
and both arguments of any other operation. So after a successful sweep a node holds a gradient at
the index if it did before, or if it takes contributions and some expression of the sweep has it
as a receiver (`backwardAll_isSome`). A rule whose arguments have values fails for want of the
gradient of its result, or as an operation on tensors (`contributions_error`).
-/

namespace GradientReplay

variable {α : Type}

/-- The arguments that the rule of a term hands a contribution to. -/
def Term.receivers {ν : Type} : Term α ν → List ν
  | unary _ x | binary _ x _ => [x]
  | arithmetic _ x y => [x, y]

theorem Term.receivers_subset {ν : Type} (t : Term α ν) : t.receivers ⊆ t.arguments := by
  cases t <;> simp [receivers, arguments, first, second?]

section Rules

variable [Zero α] [Add α] [Sub α] [Mul α] [Div α] [Neg α] [BEq α]

/-! ### One rule -/

omit [Sub α] [Neg α] in
/-- The contributions of a rule go to the receivers. -/
theorem Term.contributions_receivers {read : NodeId → Except ReplayError (Tensor α)}
    {g : Tensor α} {t : Term α NodeId} {cs : List (Contribution α)}
    (h : t.contributions read g = .ok cs) : cs.map (·.node) = t.receivers := by
  cases t with
  | unary f x =>
      obtain ⟨a, -, h⟩ := bind_ok_iff.mp h
      obtain ⟨gx, -, h⟩ := bind_ok_iff.mp h
      cases h
      rfl
  | binary f x c =>
      obtain ⟨a, -, h⟩ := bind_ok_iff.mp h
      obtain ⟨b, -, h⟩ := bind_ok_iff.mp h
      obtain ⟨slope, -, h⟩ := bind_ok_iff.mp h
      obtain ⟨gx, -, h⟩ := bind_ok_iff.mp h
      cases h
      rfl
  | arithmetic operation x y =>
      cases operation with
      | add =>
          cases h
          rfl
      | subtract =>
          cases h
          rfl
      | dot =>
          obtain ⟨a, -, h⟩ := bind_ok_iff.mp h
          obtain ⟨b, -, h⟩ := bind_ok_iff.mp h
          obtain ⟨bt, -, h⟩ := bind_ok_iff.mp h
          obtain ⟨gx, -, h⟩ := bind_ok_iff.mp h
          obtain ⟨at', -, h⟩ := bind_ok_iff.mp h
          obtain ⟨gy, -, h⟩ := bind_ok_iff.mp h
          cases h
          rfl
      | multiply =>
          obtain ⟨b, -, h⟩ := bind_ok_iff.mp h
          obtain ⟨gx, -, h⟩ := bind_ok_iff.mp h
          obtain ⟨a, -, h⟩ := bind_ok_iff.mp h
          obtain ⟨gy, -, h⟩ := bind_ok_iff.mp h
          cases h
          rfl
      | divide =>
          obtain ⟨a, -, h⟩ := bind_ok_iff.mp h
          obtain ⟨b, -, h⟩ := bind_ok_iff.mp h
          obtain ⟨gx, -, h⟩ := bind_ok_iff.mp h
          obtain ⟨ga, -, h⟩ := bind_ok_iff.mp h
          obtain ⟨bb, -, h⟩ := bind_ok_iff.mp h
          obtain ⟨gy, -, h⟩ := bind_ok_iff.mp h
          cases h
          rfl

/-! ### How a rule can fail -/

/-- The computation fails, if it does, with such errors only. -/
def FailsOnly {β : Type} (P : ReplayError → Prop) (x : Except ReplayError β) : Prop :=
  ∀ e, x = .error e → P e

/-- The computation fails, if it does, as an operation on tensors. -/
def OnlyTensorErrors {β : Type} (x : Except ReplayError β) : Prop :=
  ∀ e, x = .error e → ∃ cause, e = .tensor cause

section Errors

variable {β γ : Type} {P : ReplayError → Prop}

theorem failsOnly_ok (b : β) : FailsOnly P (.ok b) := by
  intro e h
  cases h

theorem FailsOnly.bind {x : Except ReplayError β} {f : β → Except ReplayError γ}
    (hx : FailsOnly P x) (hf : ∀ b, FailsOnly P (f b)) : FailsOnly P (x >>= f) := by
  intro e h
  rcases bind_error_iff.mp h with failed | ⟨b, -, failed⟩
  · exact hx e failed
  · exact hf b e failed

variable (tensor : ∀ cause, P (.tensor cause))

include tensor

theorem failsOnly_ofTensor (x : Except TensorError β) : FailsOnly P (ofTensor x) := by
  intro e h
  cases x with
  | ok b => cases h
  | error cause =>
      cases h
      exact tensor cause

/-- An operation on tensors, and what follows it. -/
theorem failsOnly_then {x : Except TensorError β} {f : β → Except ReplayError γ}
    (hf : ∀ b, FailsOnly P (f b)) : FailsOnly P (ofTensor x >>= f) :=
  (failsOnly_ofTensor tensor x).bind hf

omit tensor in
theorem onlyTensorErrors_ofTensor (x : Except TensorError β) : OnlyTensorErrors (ofTensor x) :=
  failsOnly_ofTensor (P := fun e => ∃ cause, e = .tensor cause) (fun cause => ⟨cause, rfl⟩) x

end Errors


omit [Sub α] [Neg α] in
/-- A rule fails as reading its arguments does, or as an operation on tensors. -/
theorem Term.contributions_error {P : ReplayError → Prop} (tensor : ∀ cause, P (.tensor cause))
    {read : NodeId → Except ReplayError (Tensor α)} {t : Term α NodeId}
    (readable : ∀ a ∈ t.arguments, FailsOnly P (read a)) (g : Tensor α) :
    FailsOnly P (t.contributions read g) := by
  have first := readable t.first t.first_mem_arguments
  cases t with
  | unary f x =>
      refine first.bind fun a => ?_
      exact failsOnly_then tensor fun gx => failsOnly_ok _
  | binary f x c =>
      have second := readable c (by simp [arguments, second?])
      refine first.bind fun a => second.bind fun b => ?_
      exact failsOnly_then tensor fun slope => failsOnly_then tensor fun gx => failsOnly_ok _
  | arithmetic operation x y =>
      have second := readable y (by simp [arguments, second?])
      cases operation with
      | add => exact failsOnly_ok _
      | subtract => exact failsOnly_ok _
      | dot =>
          refine first.bind fun a => second.bind fun b => ?_
          refine failsOnly_then tensor fun bt => failsOnly_then tensor fun gx => ?_
          exact failsOnly_then tensor fun at' => failsOnly_then tensor fun gy => failsOnly_ok _
      | multiply =>
          refine second.bind fun b => failsOnly_then tensor fun gx => ?_
          exact first.bind fun a => failsOnly_then tensor fun gy => failsOnly_ok _
      | divide =>
          refine first.bind fun a => second.bind fun b => ?_
          refine failsOnly_then tensor fun gx => failsOnly_then tensor fun ga => ?_
          exact failsOnly_then tensor fun bb => failsOnly_then tensor fun gy => failsOnly_ok _

omit [Mul α] [Div α] [BEq α] in
theorem Contribution.apply_error (c : Contribution α) (i : Index) (nodes : Nodes α) :
    OnlyTensorErrors (c.apply i nodes).result := by
  intro e h
  exact Nodes.accumulate_error (Outcome.ofExcept_error.mp h)

namespace Expression

variable {e : Expression α} {i j : Index} {nodes : Nodes α} {n : NodeId}

/-- Without the gradient of its result a rule fails for want of it. -/
theorem backward_missing (missing : nodes.gradient? e.result i = none) :
    (e.backward i nodes).result = .error (.missingGradient e.result i) := by
  have failed : e.contributions i nodes = .error (.missingGradient e.result i) := by
    unfold contributions Nodes.readGradient
    rw [missing]
    rfl
  unfold backward
  rw [failed]

/-- What follows a rule fails only as an operation on tensors. -/
theorem backward_failsOnly {P : ReplayError → Prop} (tensor : ∀ cause, P (.tensor cause))
    (rule : FailsOnly P (e.contributions i nodes)) : FailsOnly P (e.backward i nodes).result := by
  intro err h
  unfold backward at h
  split at h
  · rename_i cause failed
    cases h
    exact rule err failed
  · obtain ⟨before, c, after, -, -, failed⟩ := Outcome.each_error.mp h
    obtain ⟨cause, rfl⟩ := c.apply_error i _ err failed
    exact tensor cause

/-- With the gradient of its result and the values of its arguments, a rule fails only as an
operation on tensors. -/
theorem backward_error (found : (nodes.gradient? e.result i).isSome)
    (values : ∀ a ∈ e.term.arguments, (nodes.value? a i).isSome) :
    OnlyTensorErrors (e.backward i nodes).result := by
  obtain ⟨g, hg⟩ := Option.isSome_iff_exists.mp found
  refine backward_failsOnly (P := fun e => ∃ cause, e = .tensor cause) (fun cause => ⟨cause, rfl⟩) ?_
  unfold contributions
  rw [Nodes.readGradient_ok.mpr hg]
  refine Term.contributions_error (fun cause => ⟨cause, rfl⟩) (fun a ha => ?_) g
  obtain ⟨v, hv⟩ := Option.isSome_iff_exists.mp (values a ha)
  rw [Nodes.readValue_ok.mpr hv]
  exact failsOnly_ok v

/-- Whatever is missing, a rule answers with its error. -/
theorem backward_answered : FailsOnly (·.answered = true) (e.backward i nodes).result := by
  refine backward_failsOnly (fun _ => rfl) ?_
  have gradient : FailsOnly (·.answered = true) (nodes.readGradient i e.result) := by
    intro err h
    unfold Nodes.readGradient at h
    split at h
    · cases h
    · cases h
      rfl
  refine gradient.bind fun g => Term.contributions_error (fun _ => rfl) (fun a _ => ?_) g
  intro err h
  unfold Nodes.readValue at h
  split at h
  · cases h
  · cases h
    rfl

/-! ### Which nodes come to hold a gradient -/

theorem backward_ok (h : (e.backward i nodes).result = .ok ()) :
    ∃ cs, e.contributions i nodes = .ok cs ∧
      e.backward i nodes = .each (Contribution.apply i) nodes cs := by
  unfold backward at h ⊢
  split at h
  · cases h
  · rename_i cs made
    exact ⟨cs, made, rfl⟩

theorem backward_isSome (h : (e.backward i nodes).result = .ok ()) :
    ((e.backward i nodes).state.gradient? n i).isSome ↔
      (nodes.gradient? n i).isSome ∨ n ∈ e.term.receivers ∧ nodes.Takes n := by
  obtain ⟨cs, made, eq⟩ := backward_ok h
  rw [eq] at h ⊢
  rw [Outcome.each_gains (I := fun ns : Nodes α => ns.ungraded = nodes.ungraded)
    (H := fun ns : Nodes α => (ns.gradient? n i).isSome)
    (R := fun c : Contribution α => c.node = n ∧ nodes.Takes n) ?_ rfl h]
  · obtain ⟨g, -, made⟩ := bind_ok_iff.mp made
    rw [← Term.contributions_receivers made, List.mem_map]
    simp only [exists_and_right, ← and_assoc]
  · intro ns c same applied
    have accumulated := Outcome.ofExcept_ok.mp applied
    refine ⟨(c.apply_ungraded i ns).trans same, ?_⟩
    rw [← Nodes.takes_of_ungraded same]
    exact Nodes.accumulate_isSome accumulated

/-- After a successful sweep a node holds a gradient if it did before, or if it takes
contributions and is a receiver of some expression of the sweep. -/
theorem backwardAll_isSome {es : List (Expression α)}
    (h : (backwardAll i es nodes).result = .ok ()) :
    ((backwardAll i es nodes).state.gradient? n i).isSome ↔
      (nodes.gradient? n i).isSome ∨ (∃ e ∈ es, n ∈ e.term.receivers) ∧ nodes.Takes n := by
  unfold backwardAll at h ⊢
  rw [Outcome.each_gains (I := fun ns : Nodes α => ns.ungraded = nodes.ungraded)
    (H := fun ns : Nodes α => (ns.gradient? n i).isSome)
    (R := fun e : Expression α => n ∈ e.term.receivers ∧ nodes.Takes n) ?_ rfl h]
  · simp only [exists_and_right, ← and_assoc]
  · intro ns e same swept
    refine ⟨(e.backward_ungraded i ns).trans same, ?_⟩
    rw [← Nodes.takes_of_ungraded same]
    exact backward_isSome swept

/-- A rule leaves the gradients of what it does not hand a contribution to, and those at other
indices. -/
theorem backward_gradient? (nodes : Nodes α) (apart : n ∉ e.term.receivers ∨ j ≠ i) :
    (e.backward i nodes).state.gradient? n j = nodes.gradient? n j := by
  unfold backward
  split
  · rfl
  · rename_i cs made
    obtain ⟨g, -, made⟩ := bind_ok_iff.mp made
    apply Outcome.each_preserves (P := fun ns : Nodes α => ns.gradient? n j = nodes.gradient? n j)
    · intro ns c hc same
      apply Outcome.ofExcept_preserves
        (P := fun ns : Nodes α => ns.gradient? n j = nodes.gradient? n j) same
      intro ns' accumulated
      rw [Nodes.accumulate_gradient?_of_ne accumulated, same]
      refine apart.imp_left fun free here => free ?_
      rw [here, ← Term.contributions_receivers made]
      exact List.mem_map_of_mem hc
    · rfl

theorem backwardAll_gradient? {es : List (Expression α)} (nodes : Nodes α)
    (apart : (∀ e ∈ es, n ∉ e.term.receivers) ∨ j ≠ i) :
    (backwardAll i es nodes).state.gradient? n j = nodes.gradient? n j := by
  apply Outcome.each_preserves (P := fun ns : Nodes α => ns.gradient? n j = nodes.gradient? n j)
  · intro ns e he same
    rw [backward_gradient? ns (apart.imp_left fun free => free e he), same]
  · rfl

end Expression

/-! ### The links -/

namespace Link

variable {i j : Index} {nodes : Nodes α} {n : NodeId}

omit [Mul α] [Div α] [BEq α] in
theorem giveBack_ok {link : Link α} (h : (link.giveBack i nodes).result = .ok ()) :
    i ≠ .last ∧ nodes.accumulate link.producer i .plus (link.handed i nodes) =
      .ok (link.giveBack i nodes).state.2 := by
  have below : i ≠ .last := by
    rintro rfl
    cases h
  rw [giveBack_of_ne below] at h ⊢
  exact ⟨below, Outcome.ofExcept_ok.mp h⟩

omit [Mul α] [Div α] [BEq α] in
/-- After the links gave back, the producers hold gradients, if they take contributions. -/
theorem giveBackAll_isSome {links : List (Link α)}
    (h : (giveBackAll i links nodes).result = .ok ()) :
    ((giveBackAll i links nodes).state.2.gradient? n i).isSome ↔
      (nodes.gradient? n i).isSome ∨ (∃ l ∈ links, l.producer = n) ∧ nodes.Takes n := by
  induction links generalizing nodes with
  | nil => simp [giveBackAll]
  | cons link links ih =>
      rw [giveBackAll_cons] at h ⊢
      cases first : (link.giveBack i nodes).result with
      | error e =>
          rw [first] at h
          cases h
      | ok b =>
          rw [first] at h
          have one := Nodes.accumulate_isSome (n := n) (giveBack_ok first).2
          have takes := Nodes.takes_of_ungraded (n := n) (link.giveBack_frame i nodes).2
          simp only [Outcome.embed_state]
          rw [ih h, one, takes]
          simp only [List.exists_mem_cons_iff, or_and_right, or_assoc]

omit [Mul α] [Div α] [BEq α] in
/-- Off the last index a link fails to give back only as an operation on tensors. -/
theorem giveBackAll_error (below : i ≠ .last) (links : List (Link α)) (nodes : Nodes α) :
    OnlyTensorErrors (giveBackAll i links nodes).result := by
  induction links generalizing nodes with
  | nil => exact failsOnly_ok _
  | cons link links ih =>
      rw [giveBackAll_cons]
      cases first : (link.giveBack i nodes).result with
      | ok b => exact ih _
      | error e =>
          intro e' h
          cases h
          rw [giveBack_of_ne below] at first
          exact Nodes.accumulate_error (Outcome.ofExcept_error.mp first)

omit [Mul α] [Div α] [BEq α] in
/-- At the last index the first link overflows. -/
theorem giveBackAll_last (link : Link α) (links : List (Link α)) (nodes : Nodes α) :
    giveBackAll .last (link :: links) nodes = ⟨(link :: links, nodes), .error .indexOverflow⟩ := rfl

omit [Mul α] [Div α] [BEq α] in
/-- Links overflow exactly at the last index. -/
theorem giveBackAll_overflow_iff {links : List (Link α)} :
    (giveBackAll i links nodes).result = .error .indexOverflow ↔ i = .last ∧ links ≠ [] := by
  constructor
  · intro overflow
    constructor
    · by_contra below
      obtain ⟨cause, impossible⟩ := giveBackAll_error below links nodes _ overflow
      cases impossible
    · rintro rfl
      cases overflow
  · rintro ⟨rfl, some⟩
    obtain ⟨link, rest, rfl⟩ := List.exists_cons_of_ne_nil some
    rw [giveBackAll_last]

omit [Mul α] [Div α] [BEq α] in
/-- Links fail to give back as an operation on tensors, or overflow. -/
theorem giveBackAll_error_cases {links : List (Link α)} {e : ReplayError}
    (failed : (giveBackAll i links nodes).result = .error e) :
    (∃ cause, e = .tensor cause) ∨ e = .indexOverflow := by
  by_cases top : i = .last
  · subst top
    cases links with
    | nil => cases failed
    | cons link links =>
        cases failed
        exact .inr rfl
  · exact .inl (giveBackAll_error top links nodes e failed)

omit [Mul α] [Div α] [BEq α] in
/-- A link leaves the gradients at other indices. -/
theorem giveBack_gradient?_of_ne (link : Link α) (nodes : Nodes α) (n : NodeId) (ne : j ≠ i) :
    (link.giveBack i nodes).state.2.gradient? n j = nodes.gradient? n j := by
  apply giveBack_preserves (P := fun ns : Nodes α => ns.gradient? n j = nodes.gradient? n j) _ rfl
  intro ns g same
  rw [Nodes.gradient?_setGradient_of_ne _ _ (.inr ne), same]

omit [Mul α] [Div α] [BEq α] in
/-- The links leave the gradients at other indices. -/
theorem giveBackAll_gradient?_of_ne (links : List (Link α)) (nodes : Nodes α) (n : NodeId)
    (ne : j ≠ i) :
    (giveBackAll i links nodes).state.2.gradient? n j = nodes.gradient? n j := by
  induction links generalizing nodes with
  | nil => rfl
  | cons link links ih =>
      have one := link.giveBack_gradient?_of_ne nodes n ne
      rw [giveBackAll_cons]
      split
      · exact one
      · exact (ih _).trans one

end Link

/-! ### A replay back -/

namespace Procedure

/-- When a replay back at an index has applied the rules of some expressions, these nodes hold
gradients there: the output, those that held one already, and those that take contributions and
were handed one by a link or by a rule. -/
def Fed (p : Procedure α) (i : Index) (applied : List (Expression α)) (n : NodeId) : Prop :=
  n = p.output ∨ (p.nodes.gradient? n i).isSome ∨
    ((∃ l ∈ p.links, l.producer = n) ∨ ∃ e ∈ applied, n ∈ e.term.receivers) ∧ p.nodes.Takes n

variable {p : Procedure α} {i j : Index} {g : Tensor α} {n : NodeId}

omit [Mul α] [Div α] [BEq α] in
theorem given_isSome (valid : p.plan.Valid) (h : (p.given i g).result = .ok ()) :
    ((p.given i g).state.2.gradient? n i).isSome ↔ p.Fed i [] n := by
  have output : ((p.nodes.setGradient p.output i g).gradient? n i).isSome ↔
      n = p.output ∨ (p.nodes.gradient? n i).isSome := by
    by_cases same : n = p.output
    · subst same
      have inside : p.output < p.nodes.length := p.plan_nodes_length ▸ valid.output
      rw [Nodes.gradient?_setGradient_self (List.getElem?_eq_getElem inside)]
      constructor
      · intro _
        exact .inl rfl
      · intro _
        rfl
    · rw [Nodes.gradient?_setGradient_of_ne _ _ (.inl same)]
      constructor
      · exact .inr
      · rintro (here | before)
        · exact absurd here same
        · exact before
  unfold given at h ⊢
  rw [Link.giveBackAll_isSome h, output,
    Nodes.takes_of_ungraded (Nodes.ungraded_setGradient p.nodes p.output i g)]
  simp only [Fed, List.not_mem_nil, false_and, exists_false, or_false, or_assoc]

omit [Mul α] [Div α] [BEq α] in
/-- Links that give back do so off the last index. -/
theorem given_below (h : (p.given i g).result = .ok ()) {l : Link α} (hl : l ∈ p.links) :
    i ≠ .last := by
  intro top
  have overflow : (p.given i g).result = .error .indexOverflow :=
    Link.giveBackAll_overflow_iff.mpr ⟨top, List.ne_nil_of_mem hl⟩
  rw [h] at overflow
  cases overflow

omit [Mul α] [Div α] [BEq α] in
theorem given_gradient?_of_ne (p : Procedure α) (g : Tensor α) (n : NodeId) (ne : j ≠ i) :
    (p.given i g).state.2.gradient? n j = p.nodes.gradient? n j := by
  unfold given
  rw [Link.giveBackAll_gradient?_of_ne _ _ _ ne,
    Nodes.gradient?_setGradient_of_ne _ _ (.inr ne)]

/-- When the rules of some expressions succeeded, exactly the nodes that were fed hold gradients. -/
theorem sweep_isSome (valid : p.plan.Valid) (given : (p.given i g).result = .ok ())
    {applied : List (Expression α)}
    (h : (Expression.backwardAll i applied (p.given i g).state.2).result = .ok ()) :
    ((Expression.backwardAll i applied (p.given i g).state.2).state.gradient? n i).isSome ↔
      p.Fed i applied n := by
  rw [Expression.backwardAll_isSome h, given_isSome valid given,
    Nodes.takes_of_ungraded (p.given_frame i g).2]
  simp only [Fed, List.not_mem_nil, false_and, exists_false, or_false, or_assoc, or_and_right]

/-- A successful replay back went through the links and the rules. -/
theorem backward_ok {out : NodeId} (h : (p.backward i g).result = .ok out) :
    (p.given i g).result = .ok () ∧
      (Expression.backwardAll i p.backwardOrder (p.given i g).state.2).result = .ok () := by
  cases given : (p.given i g).result with
  | error e =>
      rw [backward_of_not_given given] at h
      cases h
  | ok b =>
      rw [(backward_of_given given).2] at h
      refine ⟨rfl, ?_⟩
      cases swept : (Expression.backwardAll i p.backwardOrder (p.given i g).state.2).result with
      | ok b => rfl
      | error e =>
          rw [swept] at h
          cases h

/-- When the links give back, a replay back fails where a rule fails, after all rules before it
succeeded. -/
theorem backward_error_of_given (given : (p.given i g).result = .ok ()) {cause : ReplayError} :
    (p.backward i g).result = .error cause ↔
      ∃ before e after, p.backwardOrder = before ++ e :: after ∧
        (Expression.backwardAll i before (p.given i g).state.2).result = .ok () ∧
        (e.backward i (Expression.backwardAll i before (p.given i g).state.2).state).result =
          .error cause := by
  rw [(backward_of_given given).2]
  refine Iff.trans ?_ Outcome.each_error
  change _ ↔ (Expression.backwardAll i p.backwardOrder (p.given i g).state.2).result = _
  cases (Expression.backwardAll i p.backwardOrder (p.given i g).state.2).result with
  | ok b => exact iff_of_false (by rintro ⟨⟩) (by rintro ⟨⟩)
  | error e => exact ⟨fun h => by cases h; rfl, fun h => by cases h; rfl⟩

/-- After a successful replay back exactly the nodes that were fed hold gradients at its index. -/
theorem backward_isSome (valid : p.plan.Valid) {out : NodeId}
    (h : (p.backward i g).result = .ok out) :
    ((p.backward i g).state.nodes.gradient? n i).isSome ↔ p.Fed i p.backwardOrder n := by
  obtain ⟨given, swept⟩ := backward_ok h
  rw [(backward_of_given given).1]
  exact sweep_isSome valid given swept

/-- A replay back leaves the gradients at other indices. -/
theorem backward_gradient?_of_ne (p : Procedure α) (g : Tensor α) (n : NodeId) (ne : j ≠ i) :
    (p.backward i g).state.nodes.gradient? n j = p.nodes.gradient? n j := by
  cases given : (p.given i g).result with
  | error e =>
      rw [backward_of_not_given given]
      exact p.given_gradient?_of_ne g n ne
  | ok b =>
      rw [(backward_of_given given).1]
      exact (Expression.backwardAll_gradient? _ (.inr ne)).trans
        (p.given_gradient?_of_ne g n ne)

end Procedure

end Rules

end GradientReplay
