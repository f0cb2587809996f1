import GradientReplay.Proofs.Gradient.Shape
import GradientReplay.Proofs.Procedure.Evaluation
import GradientReplay.Proofs.Procedure.Locality

/-!
Do the gradients of a replay back fit their nodes?

Operands of a single element go together whatever their shapes are, and a node of a single element
takes a first gradient of another shape as it is. So a replay back at an index that was just computed
never meets shapes that do not go together, but it leaves gradients of their nodes' shapes exactly
when each second operand that differs so from the first one was fed before, or takes no contributions
(`Procedure.Settles`, `Procedure.backward_fits_iff`). A gradient of another shape can make a later
matrix product fail (`bias_not_matrix`).
-/

namespace GradientReplay

variable {α : Type}

/-! ### What the links hand back -/

namespace Link

theorem supply_shape [Zero α] {read last : Option (Tensor α)} {s : Shape}
    (readFits : ∀ v ∈ read, v.shape = s) (lastFits : ∀ v ∈ last, v.shape = s) :
    (supply read last s).shape = s := by
  cases read with
  | some v => exact readFits v rfl
  | none =>
      cases last with
      | some v => exact lastFits v rfl
      | none => rfl

variable [Zero α] [Add α] [Sub α] [Neg α] {i : Index}

theorem giveBack_of_made {link : Link α} {nodes nodes' : Nodes α} (below : i ≠ .last)
    (made : nodes.accumulate link.producer i .plus (link.handed i nodes) = .ok nodes') :
    link.giveBack i nodes =
      .done ({ link with lastGradient := i.next?.bind (nodes.gradient? link.consumer) }, nodes')
        () := by
  rw [giveBack_of_ne below, made]
  rfl

/-- Links between nodes of one shape hand on gradients that fit, if those fit that they read and
remember; so they do not fail, except at the last index. -/
theorem giveBackAll_fit {links : List (Link α)} {nodes : Nodes α} (fit : nodes.GradientsFit i)
    (next : ∀ j, i.next? = some j → nodes.GradientsFit j)
    (joined : ∀ l ∈ links, shapeOf nodes l.producer = shapeOf nodes l.consumer)
    (remembered : ∀ l ∈ links, ∀ γ ∈ l.lastGradient, γ.shape = shapeOf nodes l.consumer) :
    ((giveBackAll i links nodes).result = .ok () ∨
        (giveBackAll i links nodes).result = .error .indexOverflow) ∧
      (giveBackAll i links nodes).state.2.GradientsFit i := by
  by_cases top : i = .last
  · subst top
    cases links with
    | nil => exact ⟨.inl rfl, fit⟩
    | cons link links => exact ⟨.inr rfl, fit⟩
  induction links generalizing nodes with
  | nil => exact ⟨.inl rfl, fit⟩
  | cons link links ih =>
      have handed : (link.handed i nodes).shape = shapeOf nodes link.producer := by
        rw [joined link List.mem_cons_self]
        apply supply_shape _ (remembered link List.mem_cons_self)
        intro γ found
        obtain ⟨j, after, found⟩ := Option.bind_eq_some_iff.mp found
        exact next j after link.consumer γ found
      have settles := (congrArg (shapeOf nodes link.producer).settle handed).trans
        (Shape.settle_self _)
      obtain ⟨nodes', made⟩ := Nodes.accumulate_of_settles fit.graded (.inl settles)
      have given := giveBack_of_made top made
      have shape := Nodes.shapeOf_of_ungraded (Nodes.accumulate_ungraded made)
      have fit' : nodes'.GradientsFit i :=
        (Nodes.accumulate_fit made).mpr ⟨fit, fun strays => absurd settles strays⟩
      have next' : ∀ j, i.next? = some j → nodes'.GradientsFit j := by
        intro j after m γ found
        rw [Nodes.accumulate_gradient?_of_ne made (.inr (Index.next?_ne after))] at found
        rw [shape]
        exact next j after m γ found
      have later := ih fit' next'
        (fun l hl => by
          rw [shape]
          exact joined l (List.mem_cons_of_mem _ hl))
        (fun l hl => by
          rw [shape]
          exact remembered l (List.mem_cons_of_mem _ hl))
      rw [giveBackAll_cons, given]
      exact later

end Link

/-! ### A replay back -/

/-- The links join nodes of one shape. -/
def Plan.Joined (P : Plan α) : Prop := ∀ l ∈ P.links, P.shapeOf l.1 = P.shapeOf l.2

instance (P : Plan α) : Decidable P.Joined :=
  inferInstanceAs (Decidable (∀ l ∈ P.links, P.shapeOf l.1 = P.shapeOf l.2))

namespace Procedure

/-- Whenever a term of these expressions mixes a node, the node takes no contributions or was fed by
the expressions before. -/
def Settles (p : Procedure α) (i : Index) (es : List (Expression α)) : Prop :=
  ∀ before e after, es = before ++ e :: after →
    ∀ y, e.term.Mixes p.plan.shapeOf y → p.nodes.Takes y → p.Fed i before y

theorem Settles.truncate {p : Procedure α} {i : Index} {es more : List (Expression α)}
    (settles : p.Settles i (es ++ more)) : p.Settles i es := by
  intro before e after split
  apply settles before e (after ++ more)
  rw [split, List.append_assoc]
  rfl

variable [Zero α] [Add α] [Sub α] [Mul α] [Div α] [Neg α] [BEq α] {p : Procedure α} {i : Index}
  {g : Tensor α}

/-- The values at the index are computed, the gradients there and at the next one fit, and so do those
that the links remember. -/
structure Prepared (p : Procedure α) (i : Index) : Prop where
  valid : p.plan.Valid
  holds : ∀ e ∈ p.forwardOrder, e.Holds i p.nodes
  fits : p.nodes.Fits i
  here : p.nodes.GradientsFit i
  next : ∀ j, i.next? = some j → p.nodes.GradientsFit j
  joined : p.plan.Joined
  remembered : ∀ l ∈ p.links, ∀ γ ∈ l.lastGradient, γ.shape = Link.shapeOf p.nodes l.consumer

/-- The sweep starts from gradients that fit, unless the links overflow. -/
theorem Prepared.given_fit (prepared : p.Prepared i)
    (outputFits : g.shape = Link.shapeOf p.nodes p.output) :
    ((p.given i g).result = .ok () ∨ (p.given i g).result = .error .indexOverflow) ∧
      (p.given i g).state.2.GradientsFit i := by
  have shape := Nodes.shapeOf_of_ungraded (Nodes.ungraded_setGradient p.nodes p.output i g)
  have inside : p.output < p.nodes.length := p.plan_nodes_length ▸ prepared.valid.output
  apply Link.giveBackAll_fit
  · intro m γ found
    rw [shape]
    by_cases same : m = p.output
    · subst same
      rw [Nodes.gradient?_setGradient_self (List.getElem?_eq_getElem inside)] at found
      cases found
      exact outputFits
    · rw [Nodes.gradient?_setGradient_of_ne _ _ (.inl same)] at found
      exact prepared.here m γ found
  · intro j after m γ found
    rw [Nodes.gradient?_setGradient_of_ne _ _ (.inr (Index.next?_ne after))] at found
    rw [shape]
    exact prepared.next j after m γ found
  · intro l hl
    rw [shape, ← plan_shapeOf, ← plan_shapeOf]
    exact prepared.joined l.ends (List.mem_map_of_mem hl)
  · rw [shape]
    exact prepared.remembered

section Swept

variable (prepared : p.Prepared i) (outputFits : g.shape = Link.shapeOf p.nodes p.output)
  {applied more : List (Expression α)} (split : p.backwardOrder = applied ++ more)

include prepared split

theorem Prepared.given_holds : ∀ e ∈ applied, e.Holds i (p.given i g).state.2 := by
  intro e he
  have mem : e ∈ p.backwardOrder := by
    rw [split]
    exact List.mem_append_left _ he
  exact (prepared.holds e (prepared.valid.backward_subset mem)).of_ungraded (p.given_frame i g).2

include outputFits

/-- After the first rules of the backward order the gradients fit exactly if these settle. -/
theorem Prepared.swept_fit_iff (given : (p.given i g).result = .ok ())
    (ok : (Expression.backwardAll i applied (p.given i g).state.2).result = .ok ()) :
    (Expression.backwardAll i applied (p.given i g).state.2).state.GradientsFit i ↔
      p.Settles i applied := by
  obtain ⟨-, fit⟩ := prepared.given_fit outputFits
  have same := (p.given_frame i g).2
  have shape : Link.shapeOf (p.given i g).state.2 = p.plan.shapeOf := by
    rw [Nodes.shapeOf_of_ungraded same]
    exact funext fun n => (p.plan_shapeOf n).symm
  rw [Expression.backwardAll_fit (prepared.given_holds split) (prepared.fits.of_ungraded same) fit ok,
    shape]
  simp only [Nodes.takes_of_ungraded same]
  refine forall_congr' fun before => forall_congr' fun e => forall₂_congr fun after first => ?_
  have reached : (Expression.backwardAll i before (p.given i g).state.2).result = .ok () := by
    rw [first] at ok
    unfold Expression.backwardAll at ok
    rw [Outcome.each_append] at ok
    obtain ⟨⟨⟩, early, -⟩ := Outcome.andThen_ok.mp ok
    exact early
  simp only [sweep_isSome prepared.valid given reached]

end Swept

/-- A replay back leaves gradients that fit exactly if the backward order settles. -/
theorem Prepared.fit_iff (prepared : p.Prepared i)
    (outputFits : g.shape = Link.shapeOf p.nodes p.output) {back : NodeId}
    (ok : (p.backward i g).result = .ok back) :
    (p.backward i g).state.nodes.GradientsFit i ↔ p.Settles i p.backwardOrder := by
  obtain ⟨given, swept⟩ := backward_ok ok
  rw [(backward_of_given given).1]
  exact prepared.swept_fit_iff outputFits (List.append_nil _).symm given swept

/-- A replay back overflows or fails for want of a gradient, on a divisor with a zero, or on a matrix
product whose gradient is no matrix; the last only if the backward order does not settle. -/
theorem Prepared.error_cases (prepared : p.Prepared i)
    (outputFits : g.shape = Link.shapeOf p.nodes p.output) {cause : ReplayError}
    (failed : (p.backward i g).result = .error cause) :
    cause = .indexOverflow ∨ (∃ n, cause = .missingGradient n i) ∨ cause = .tensor .zeroDivisor ∨
      (∃ s, cause = .tensor (.notMatrix .matMul s)) ∧ ¬ p.Settles i p.backwardOrder := by
  obtain ⟨given | overflow, fit⟩ := prepared.given_fit outputFits
  · obtain ⟨before, e, after, split, ok, failed⟩ := (backward_error_of_given given).mp failed
    have same := (p.given_frame i g).2
    have swept := Expression.backwardAll_ungraded i before (p.given i g).state.2
    have holds : e.Holds i (Expression.backwardAll i before (p.given i g).state.2).state := by
      have split' : p.backwardOrder = (before ++ [e]) ++ after := by
        rw [split, List.append_assoc]
        rfl
      have last : e ∈ before ++ [e] := List.mem_append_right before List.mem_cons_self
      exact (prepared.given_holds split' e last).of_ungraded swept
    have graded := Expression.backwardAll_graded (prepared.given_holds split)
      (prepared.fits.of_ungraded same) fit.graded
    have rule := Expression.backward_graded holds (prepared.fits.of_ungraded (swept.trans same)) graded
    rcases rule.2 cause failed with missing | zero | ⟨γ, found, differ, rfl⟩
    · exact .inr (.inl ⟨e.result, missing⟩)
    · exact .inr (.inr (.inl zero))
    · refine .inr (.inr (.inr ⟨⟨γ.shape, rfl⟩, fun settles => ?_⟩))
      rw [split] at settles
      have fits := (prepared.swept_fit_iff outputFits split given ok).mpr settles.truncate
      exact differ (fits e.result γ found)
  · rw [backward_of_not_given overflow] at failed
    cases failed
    exact .inl rfl

/-! ### At an index that was just computed -/

omit [Neg α] in
/-- A replay forward changes nothing of a link but its reading of a value. -/
theorem exists_link_before (q : Procedure α) {x : Tensor α} {l : Link α}
    (hl : l ∈ (q.forward i x).state.links) :
    ∃ l' ∈ q.links, l'.consumer = l.consumer ∧ l'.lastGradient = l.lastGradient := by
  have links : (q.forward i x).state.links.map Link.withoutValue = q.links.map Link.withoutValue :=
    congrArg Procedure.links (q.forward_withoutValues i x)
  have mem := List.mem_map_of_mem (f := Link.withoutValue) hl
  rw [links] at mem
  obtain ⟨l', hl', same⟩ := List.mem_map.mp mem
  simp only [Link.withoutValue, Link.mk.injEq] at same
  exact ⟨l', hl', same.2.1, same.2.2.2⟩

omit [Neg α] in
/-- A replay forward that succeeds prepares its index, if what is there and what the links read and
remember fits. -/
theorem forward_prepared {q : Procedure α} (valid : q.plan.Valid) (shaped : q.plan.Shaped)
    (vacant : q.Vacant) {x : Tensor α} {out : NodeId} (computed : (q.forward i x).result = .ok out)
    (inputFits : x.shape = q.plan.shapeOf q.input) (here : q.nodes.GradientsFit i)
    (next : ∀ j, i.next? = some j → q.nodes.GradientsFit j) (joined : q.plan.Joined)
    (supplied : ∀ l ∈ q.links, (l.supplied i q.nodes).shape = q.plan.shapeOf l.producer)
    (remembered : ∀ l ∈ q.links, ∀ γ ∈ l.lastGradient, γ.shape = q.plan.shapeOf l.consumer) :
    (q.forward i x).state.Prepared i := by
  have plan := q.forward_plan i x
  have shape (n : NodeId) : Link.shapeOf (q.forward i x).state.nodes n = q.plan.shapeOf n := by
    rw [← plan_shapeOf, plan]
  have kept {j : Index} (fit : q.nodes.GradientsFit j) :
      (q.forward i x).state.nodes.GradientsFit j := by
    intro m γ found
    rw [Nodes.gradient?_of_unvalued (q.forward_unvalued i x)] at found
    rw [shape, fit m γ found, plan_shapeOf]
  constructor
  · rw [plan]
    exact valid
  · rw [q.forward_forwardOrder]
    exact forward_holds valid computed
  · apply forward_fits valid shaped vacant computed inputFits
    intro l hl
    rw [supplied l hl]
    exact joined l.ends (List.mem_map_of_mem hl)
  · exact kept here
  · intro j after
    exact kept (next j after)
  · rw [plan]
    exact joined
  · intro l hl γ hγ
    obtain ⟨l', hl', consumer, last⟩ := q.exists_link_before hl
    rw [shape, ← consumer]
    exact remembered l' hl' γ (last ▸ hγ)

/-- At every index that was just computed a replay back never meets shapes that do not go together. If
each node that a term of the backward order mixes was fed before or takes no contributions, it meets
no matrix product that it cannot do either; and when it succeeds, the gradients have the shapes of
their nodes in just this case. -/
theorem backward_fits_iff {p q : Procedure α} (assisted : Session.Assisted p)
    (joined : p.plan.Joined) (reaches : p.Reaches q) {i : Index} {x g : Tensor α} {out : NodeId}
    (here : q.nodes.GradientsFit i) (next : ∀ j, i.next? = some j → q.nodes.GradientsFit j)
    (supplied : ∀ l ∈ q.links, (l.supplied i q.nodes).shape = p.plan.shapeOf l.producer)
    (remembered : ∀ l ∈ q.links, ∀ γ ∈ l.lastGradient, γ.shape = p.plan.shapeOf l.consumer)
    (inputFits : x.shape = p.plan.shapeOf p.input)
    (outputFits : g.shape = p.plan.shapeOf p.output)
    (computed : (q.forward i x).result = .ok out) :
    let r := (q.forward i x).state
    let back := r.backward i g
    (∀ operator s t, back.result ≠ .error (.tensor (.shapesDiffer operator s t))) ∧
      (r.Settles i r.backwardOrder →
        ∀ operator s, back.result ≠ .error (.tensor (.notMatrix operator s))) ∧
      ((∃ n, back.result = .ok n) →
        (back.state.nodes.GradientsFit i ↔ r.Settles i r.backwardOrder)) := by
  intro r back
  have plan := reaches_plan reaches
  have prepared : r.Prepared i := by
    have input : q.input = p.input := congrArg Plan.input plan
    apply forward_prepared _ _ (reaches_vacant assisted.compiled.vacant reaches) computed _ here next
    · rw [plan]
      exact joined
    · rw [plan]
      exact supplied
    · rw [plan]
      exact remembered
    · rw [plan]
      exact assisted.compiled.plan_valid
    · rw [plan]
      exact assisted.plan_shaped
    · rw [plan, input]
      exact inputFits
  have fits : g.shape = Link.shapeOf r.nodes r.output := by
    have planR : r.plan = p.plan := (q.forward_plan i x).trans plan
    have output : r.output = p.output := congrArg Plan.output planR
    rw [outputFits, ← plan_shapeOf, planR, output]
  refine ⟨fun operator s t failed => ?_, fun settles operator s failed => ?_, ?_⟩
  · rcases prepared.error_cases fits failed with overflow | ⟨n, missing⟩ | zero | ⟨⟨s, noMatrix⟩, -⟩
    · cases overflow
    · cases missing
    · cases zero
    · cases noMatrix
  · rcases prepared.error_cases fits failed with overflow | ⟨n, missing⟩ | zero | ⟨-, unsettled⟩
    · cases overflow
    · cases missing
    · cases zero
    · exact unsettled settles
  · rintro ⟨n, ok⟩
    exact prepared.fit_iff fits ok

/-- Two builds of `s = s + x · w`, `y = m * b + (s + b)` for one by one matrices `x`, `w` and `s`, a
two by two matrix `m` and a vector `b` of one element, the second not ended yet. The sum `s + b` mixes
`b`, which the product with `m` feeds first. -/
def cellSession : Session Int :=
  (Session.start "cell").run
    [.hold (.fill [1, 1] 3), .hold (.fill [1, 1] 2), .hold (.fill [1] 1), .hold (.fill [2, 2] 5),
      .hold (.fill [1, 1] 0), .register [1, 2, 3],
      .begin 0, .compute (.arithmetic .dot 0 1), .compute (.arithmetic .add 4 5),
      .compute (.arithmetic .add 6 2), .compute (.arithmetic .multiply 3 2),
      .compute (.arithmetic .add 8 7), .finish 9]

def cellCalls : List (Call Int) :=
  [.begin 0, .compute (.arithmetic .dot 0 1), .compute (.arithmetic .add 6 10),
    .compute (.arithmetic .add 11 2), .compute (.arithmetic .multiply 3 2),
    .compute (.arithmetic .add 13 12)]

theorem cell_fits :
    ∃ p : Procedure Int, Session.Assisted p ∧ p.links ≠ [] ∧
      let r := (p.forward 0 (.fill [1, 1] 3)).state
      r.backwardOrder.map (·.term.receivers) = [[8, 6], [7, 5], [4, 5], [3, 2], [0, 1]] ∧
        r.plan.shapeOf 4 = [1, 1] ∧ r.plan.shapeOf 5 = [1] ∧
        (r.backward 0 (.fill [2, 2] 1)).state.nodes.GradientsFit 0 ∧
        r.Settles 0 r.backwardOrder := by
  have assisted : Session.Assisted _ := ⟨cellSession, cellCalls, 14, ⟨"cell", _, rfl⟩, rfl,
    by decide, rfl⟩
  have fresh (j : Index) : Nodes.GradientsFit _ j := fun m γ found => by
    rw [assisted.compiled.fresh m j] at found
    cases found
  have fits := backward_fits_iff (i := 0) (x := .fill [1, 1] 3) (g := .fill [2, 2] 1) assisted
    (by decide +kernel) ⟨[], rfl⟩ (fresh 0) (fun j _ => fresh j) (by decide +kernel)
    (by decide +kernel) rfl rfl rfl
  refine ⟨_, assisted, List.cons_ne_nil _ _, by decide +kernel, by decide +kernel,
    by decide +kernel, ?_⟩
  have final := fits.2.2 ⟨0, by decide +kernel⟩
  exact ⟨by decide +kernel, final.mp (by decide +kernel)⟩

/-! ### A bias of another shape -/

/-- Two builds of `y = b + x · w` for one by one matrices and a vector `b` of one element, the second
not ended yet: the sum has the shape of `b`. -/
def biasSession : Session Int :=
  (Session.start "bias").run
    [.hold (.fill [1, 1] 3), .hold (.fill [1, 1] 2), .hold (.fill [1] 1), .register [1, 2],
      .begin 0, .compute (.arithmetic .dot 0 1), .compute (.arithmetic .add 2 3), .finish 4]

def biasCalls : List (Call Int) :=
  [.begin 0, .compute (.arithmetic .dot 0 1), .compute (.arithmetic .add 2 5)]

theorem bias_not_matrix :
    ∃ p : Procedure Int, Session.Assisted p ∧ p.links = [] ∧
      p.plan.shapeOf p.input = [1, 1] ∧ p.plan.shapeOf p.output = [1] ∧
      (p.forward 0 (.fill [1, 1] 3)).result = .ok 4 ∧
      ((p.forward 0 (.fill [1, 1] 3)).state.backward 0 (.fill [1] 1)).result =
        .error (.tensor (.notMatrix .matMul [1])) := by
  refine ⟨_, ⟨biasSession, biasCalls, 6, ⟨"bias", _, rfl⟩, rfl, by decide, rfl⟩, ?_⟩
  exact ⟨rfl, rfl, rfl, rfl, rfl⟩

end Procedure

end GradientReplay
