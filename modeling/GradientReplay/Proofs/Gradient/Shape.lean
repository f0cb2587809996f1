import GradientReplay.Proofs.Gradient.Contribution

/-!
Do gradients have the shapes of their nodes?

Up to the number of axes of a single element they do: the rules keep the gradients like their nodes,
and no operation of theirs meets shapes that do not go together (`Expression.backward_graded`). They
keep the very shapes as long as no rule hands a second operand of a single element the first gradient
it gets, in the shape of a first operand of another shape (`Expression.backward_fit`,
`Expression.backwardAll_fit`).
-/

namespace GradientReplay

variable {α : Type}

/-! ### One rule at an index -/

/-- The value of a node at an index; zeros of its shape where there is none. -/
def Nodes.valueOrZeros [Zero α] (nodes : Nodes α) (i : Index) (n : NodeId) : Tensor α :=
  (nodes.value? n i).getD (.zeros (Link.shapeOf nodes n))

theorem Nodes.Fits.valueOrZeros_shape [Zero α] {nodes : Nodes α} {i : Index} (fits : nodes.Fits i)
    (n : NodeId) : (nodes.valueOrZeros i n).shape = Link.shapeOf nodes n := by
  unfold valueOrZeros
  cases found : nodes.value? n i with
  | none => rfl
  | some v => exact fits n v found

/-- Of the contributions of a rule that stray no two go to one node. -/
theorem Term.Suits.apart {shape : NodeId → Shape} {exact : Prop} {t : Term α NodeId}
    {cs : List (Contribution α)} (suits : t.Suits shape exact cs) (h : exact)
    (receivers : cs.map (·.node) = t.receivers) :
    cs.Pairwise fun c d => d.Strays shape → d.node ≠ c.node := by
  cases t with
  | unary f x =>
      obtain ⟨c, rfl, -⟩ := List.map_eq_singleton_iff.mp receivers
      exact List.pairwise_singleton _ _
  | binary f x z =>
      obtain ⟨c, rfl, -⟩ := List.map_eq_singleton_iff.mp receivers
      exact List.pairwise_singleton _ _
  | arithmetic operation x y =>
      obtain ⟨c, rest, rfl, rfl, others⟩ := List.map_eq_cons_iff.mp receivers
      obtain ⟨d, rfl, rfl⟩ := List.map_eq_singleton_iff.mp others
      refine List.pairwise_pair.mpr fun strays same => ?_
      obtain ⟨z, two, differ, -⟩ := ((suits d (by simp)).2 h).mp strays
      cases two
      exact differ (congrArg shape same.symm)

namespace Expression

variable [Zero α] [Add α] [Sub α] [Mul α] [Div α] [Neg α] [BEq α] {e : Expression α} {i : Index}
  {nodes : Nodes α}

omit [Neg α] in
/-- Where the equation of an expression holds, values fit and the gradient of the result is like it,
the rule comes to contributions that suit the arguments, if it does not fail. -/
theorem contributions_comes (holds : e.Holds i nodes) (fits : nodes.Fits i)
    (graded : nodes.Graded i) {g : Tensor α} (found : nodes.gradient? e.result i = some g) :
    Term.Comes (Link.shapeOf nodes) (Link.shapeOf nodes e.result) g.shape e.term
      (e.contributions i nodes) := by
  have known {n : NodeId} {v : Tensor α} (h : nodes.value? n i = some v) :
      nodes.valueOrZeros i n = v := by
    unfold Nodes.valueOrZeros
    rw [h]
    rfl
  have readable : ∀ a ∈ e.term.arguments, nodes.readValue i a = .ok (nodes.valueOrZeros i a) := by
    intro a ha
    have h := holds.argument ha
    rw [known h]
    exact Nodes.readValue_ok.mpr h
  have computed : (e.term.map (nodes.valueOrZeros i)).eval =
      .ok (nodes.valueOrZeros i e.result) := by
    have arguments : e.term.map (nodes.valueOrZeros i) = e.term.map (nodes.valueAt i) :=
      Term.map_congr fun a ha => known (holds.argument ha)
    rw [arguments, holds.eval, known holds.stored]
  have alike : g.shape.Alike (nodes.valueOrZeros i e.result).shape := by
    rw [fits.valueOrZeros_shape]
    exact graded e.result g found
  have comes := Term.contributions_comes readable computed alike
  simp only [fits.valueOrZeros_shape] at comes
  have rule : e.contributions i nodes = e.term.contributions (nodes.readValue i) g := by
    unfold contributions
    rw [Nodes.readGradient_ok.mpr found]
    rfl
  rw [rule]
  exact comes

omit [Neg α] in
theorem contributions_suit (holds : e.Holds i nodes) (fits : nodes.Fits i)
    (graded : nodes.Graded i) {cs : List (Contribution α)}
    (rule : e.contributions i nodes = .ok cs) :
    ∃ g, nodes.gradient? e.result i = some g ∧
      e.term.Suits (Link.shapeOf nodes) (g.shape = Link.shapeOf nodes e.result) cs := by
  obtain ⟨g, read, -⟩ := bind_ok_iff.mp rule
  have found := Nodes.readGradient_ok.mp read
  have comes := contributions_comes holds fits graded found
  rw [rule] at comes
  cases comes with
  | suits _ suits => exact ⟨g, found, suits⟩

/-- A rule keeps the gradients like their nodes. It fails for want of the gradient of the result, on a
divisor with a zero, or on a matrix product whose gradient has another shape than the result. -/
theorem backward_graded (holds : e.Holds i nodes) (fits : nodes.Fits i) (graded : nodes.Graded i) :
    (e.backward i nodes).state.Graded i ∧
      ∀ cause, (e.backward i nodes).result = .error cause →
        cause = .missingGradient e.result i ∨ cause = .tensor .zeroDivisor ∨
          ∃ g, nodes.gradient? e.result i = some g ∧ g.shape ≠ Link.shapeOf nodes e.result ∧
            cause = .tensor (.notMatrix .matMul g.shape) := by
  cases rule : e.contributions i nodes with
  | error cause =>
      have failed : e.backward i nodes = ⟨nodes, .error cause⟩ := by
        unfold backward
        rw [rule]
      rw [failed]
      refine ⟨graded, fun cause' h => ?_⟩
      cases h
      cases found : nodes.gradient? e.result i with
      | none =>
          have missing := backward_missing found
          rw [failed] at missing
          cases missing
          exact .inl rfl
      | some g =>
          have comes := contributions_comes holds fits graded found
          rw [rule] at comes
          cases comes with
          | zeroDivisor => exact .inr (.inl rfl)
          | notMatrix differ => exact .inr (.inr ⟨g, rfl, differ, rfl⟩)
  | ok cs =>
      have made : e.backward i nodes = .each (Contribution.apply i) nodes cs := by
        unfold backward
        rw [rule]
      obtain ⟨g, -, suits⟩ := contributions_suit holds fits graded rule
      obtain ⟨ok, graded'⟩ := Nodes.contributions_graded graded fun c hc => (suits c hc).1
      rw [made, ok]
      refine ⟨graded', fun cause h => ?_⟩
      cases h

/-- From gradients that fit, a rule that succeeds leaves gradients that fit exactly if each node that
its term mixes takes no contributions or holds a gradient already. -/
theorem backward_fit (holds : e.Holds i nodes) (fits : nodes.Fits i) (fit : nodes.GradientsFit i)
    (ok : (e.backward i nodes).result = .ok ()) :
    (e.backward i nodes).state.GradientsFit i ↔
      ∀ y, e.term.Mixes (Link.shapeOf nodes) y → nodes.Takes y → (nodes.gradient? y i).isSome := by
  obtain ⟨cs, rule, made⟩ := backward_ok ok
  obtain ⟨g, found, suits⟩ := contributions_suit holds fits fit.graded rule
  have exact : g.shape = Link.shapeOf nodes e.result := fit e.result g found
  have receivers : cs.map (·.node) = e.term.receivers := by
    obtain ⟨g, -, rule⟩ := bind_ok_iff.mp rule
    exact Term.contributions_receivers rule
  rw [made] at ok ⊢
  rw [Nodes.contributions_fit (suits.apart exact receivers) ok, and_iff_right fit]
  constructor
  · intro strays y mixes
    have received : y ∈ cs.map (·.node) := by
      obtain ⟨x, two, -⟩ := mixes
      rw [receivers, two]
      exact List.mem_cons_of_mem _ List.mem_cons_self
    obtain ⟨c, hc, rfl⟩ := List.mem_map.mp received
    exact strays c hc (((suits c hc).2 exact).mpr mixes)
  · intro mixed c hc strays
    exact mixed c.node (((suits c hc).2 exact).mp strays)

/-! ### The sweep -/

/-- A rule keeps the shapes of the gradients there are. -/
theorem backward_keeps {k : NodeId} {s : Shape}
    (found : (nodes.gradient? k i).map (·.shape) = some s) :
    ((e.backward i nodes).state.gradient? k i).map (·.shape) = some s := by
  unfold backward
  split
  · exact found
  · apply Outcome.each_preserves
      (P := fun ns : Nodes α => (ns.gradient? k i).map (·.shape) = some s) _ found
    intro ns c _ h
    exact Outcome.ofExcept_preserves
      (P := fun ns : Nodes α => (ns.gradient? k i).map (·.shape) = some s) h
      fun ns' made => Nodes.accumulate_keeps made h

variable {es : List (Expression α)}

theorem backwardAll_keeps {k : NodeId} {s : Shape}
    (found : (nodes.gradient? k i).map (·.shape) = some s) :
    ((backwardAll i es nodes).state.gradient? k i).map (·.shape) = some s :=
  Outcome.each_preserves (P := fun ns : Nodes α => (ns.gradient? k i).map (·.shape) = some s)
    (fun _ _ _ h => backward_keeps h) found

/-- A sweep keeps the gradients like their nodes, however far it gets. -/
theorem backwardAll_graded (holds : ∀ e ∈ es, e.Holds i nodes) (fits : nodes.Fits i)
    (graded : nodes.Graded i) : (backwardAll i es nodes).state.Graded i := by
  have kept : (backwardAll i es nodes).state.ungraded = nodes.ungraded ∧
      (backwardAll i es nodes).state.Graded i := by
    apply Outcome.each_preserves
      (P := fun ns : Nodes α => ns.ungraded = nodes.ungraded ∧ ns.Graded i)
    · rintro ns e he ⟨same, graded⟩
      refine ⟨(e.backward_ungraded i ns).trans same, ?_⟩
      exact (backward_graded ((holds e he).of_ungraded same) (fits.of_ungraded same) graded).1
    · exact ⟨rfl, graded⟩
  exact kept.2

/-- From gradients that fit, a sweep that succeeds leaves gradients that fit exactly if each node that
a term mixes takes no contributions or holds a gradient when the sweep comes to the term. -/
theorem backwardAll_fit (holds : ∀ e ∈ es, e.Holds i nodes) (fits : nodes.Fits i)
    (fit : nodes.GradientsFit i) (ok : (backwardAll i es nodes).result = .ok ()) :
    (backwardAll i es nodes).state.GradientsFit i ↔
      ∀ before e after, es = before ++ e :: after → ∀ y, e.term.Mixes (Link.shapeOf nodes) y →
        nodes.Takes y → ((backwardAll i before nodes).state.gradient? y i).isSome := by
  induction es generalizing nodes with
  | nil =>
      apply iff_of_true fit
      intro before e after split
      cases before <;> cases split
  | cons e es ih =>
      obtain ⟨⟨⟩, first, later⟩ := Outcome.andThen_ok.mp ok
      have state (before : List (Expression α)) :
          (backwardAll i (e :: before) nodes).state =
            (backwardAll i before (e.backward i nodes).state).state := by
        unfold backwardAll
        rw [Outcome.each_cons, Outcome.andThen_of_ok first]
      have same := e.backward_ungraded i nodes
      have step := backward_fit (holds e List.mem_cons_self) fits fit first
      have rest (fit' : (e.backward i nodes).state.GradientsFit i) := ih
        (fun d hd => (holds d (List.mem_cons_of_mem _ hd)).of_ungraded same)
        (fits.of_ungraded same) fit' later
      rw [forall_split_cons]
      simp only [state]
      constructor
      · intro final
        have fit' := final.of_kept (backwardAll_ungraded i es _) fun k s => backwardAll_keeps
        refine ⟨step.mp fit', ?_⟩
        have h := (rest fit').mp final
        rw [Nodes.shapeOf_of_ungraded same] at h
        simpa only [Nodes.takes_of_ungraded same] using h
      · rintro ⟨here, others⟩
        apply (rest (step.mpr here)).mpr
        rw [Nodes.shapeOf_of_ungraded same]
        simpa only [Nodes.takes_of_ungraded same] using others

end Expression

end GradientReplay
