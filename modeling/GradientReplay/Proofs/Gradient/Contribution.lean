import GradientReplay.Proofs.Procedure.Backward
import GradientReplay.Proofs.Tensor.Fitting

/-!
The shapes of contributions.

The first contribution that a node takes decides the shape of its gradient (`Nodes.accumulate_shape`).
The contributions of a rule settle to shapes like those of the arguments, and with a gradient of the
very shape of the result to these shapes themselves, but for one case: a second operand of a single
element next to a first one of another shape (`Term.Mixes`) is handed a gradient of the shape of the
first one (`Term.contributions_comes`).
-/

namespace GradientReplay

variable {α : Type}

/-! ### Gradients at an index -/

namespace Nodes

/-- The gradients at an index have the shapes of their nodes. -/
def GradientsFit (nodes : Nodes α) (i : Index) : Prop :=
  ∀ m γ, nodes.gradient? m i = some γ → γ.shape = Link.shapeOf nodes m

/-- The gradients at an index are like their nodes. -/
def Graded (nodes : Nodes α) (i : Index) : Prop :=
  ∀ m γ, nodes.gradient? m i = some γ → γ.shape.Alike (Link.shapeOf nodes m)

variable {nodes nodes' : Nodes α} {i : Index} {m k : NodeId}

theorem GradientsFit.graded (fit : nodes.GradientsFit i) : nodes.Graded i := fun m γ found =>
  .inl (fit m γ found)

/-- The gradients at an index fit, if those of each node do. -/
theorem gradientsFit_iff :
    nodes.GradientsFit i ↔ ∀ c ∈ nodes, ∀ γ ∈ c.gradient? i, γ.shape = c.shape := by
  constructor
  · intro fit c hc γ hγ
    obtain ⟨m, hm⟩ := List.mem_iff_getElem?.mp hc
    rw [fit m γ ((gradient?_of_getElem? hm i).trans hγ), shapeOf_of_getElem? hm]
  · intro each m γ found
    obtain ⟨c, hc, hγ⟩ := Option.bind_eq_some_iff.mp found
    rw [each c (List.mem_of_getElem? hc) γ hγ, shapeOf_of_getElem? hc]

instance (nodes : Nodes α) (i : Index) : Decidable (nodes.GradientsFit i) :=
  decidable_of_iff _ gradientsFit_iff.symm

/-- Where gradients fit, those whose shapes were kept fitted before. -/
theorem GradientsFit.of_kept (fit : nodes'.GradientsFit i) (same : nodes'.ungraded = nodes.ungraded)
    (kept : ∀ k s, (nodes.gradient? k i).map (·.shape) = some s →
      (nodes'.gradient? k i).map (·.shape) = some s) : nodes.GradientsFit i := by
  intro k γ found
  have there := kept k γ.shape (by rw [found]; rfl)
  obtain ⟨γ', found', shape⟩ := Option.map_eq_some_iff.mp there
  rw [← shape, fit k γ' found', shapeOf_of_ungraded same]

/-! ### One contribution -/

section Contributions

variable [Zero α] [Add α] [Sub α] [Neg α] {sign : Sign} {g : Tensor α}

/-- A contribution that settles to a shape like that of its node can be made. -/
theorem accumulate_of_settles (graded : nodes.Graded i)
    (settles : ((Link.shapeOf nodes m).settle g.shape).Alike (Link.shapeOf nodes m)) :
    ∃ nodes', nodes.accumulate m i sign g = .ok nodes' := by
  by_cases takes : nodes.Takes m
  · obtain ⟨c, hc, taking⟩ := takes
    rw [shapeOf_of_getElem? hc, ← Node.fit_shape] at settles
    have oldAlike : ∀ o ∈ c.gradient? i, o.shape.Alike c.shape := by
      intro o ho
      rw [← shapeOf_of_getElem? hc]
      exact graded m o ((gradient?_of_getElem? hc i).trans ho)
    obtain ⟨γ, combined⟩ := Node.combineGradient_of_alike oldAlike settles
    rw [accumulate_of_takes hc taking, combined]
    exact ⟨_, rfl⟩
  · exact ⟨nodes, accumulate_of_not_takes takes i sign g⟩

/-- After a contribution each gradient has the shape it had, or is the first one of its node and has
the shape to which the contribution settles. -/
theorem accumulate_shape (h : nodes.accumulate m i sign g = .ok nodes') {γ : Tensor α}
    (found : nodes'.gradient? k i = some γ) :
    (nodes.gradient? k i).map (·.shape) = some γ.shape ∨
      k = m ∧ nodes.Takes m ∧ nodes.gradient? m i = none ∧
        γ.shape = (Link.shapeOf nodes m).settle g.shape := by
  rcases accumulate_cases h with ⟨-, rfl⟩ | ⟨c, γ', hc, taking, combined, rfl⟩
  · exact .inl (by rw [found]; rfl)
  · by_cases here : k = m
    · subst here
      rw [gradient?_setGradient_self hc] at found
      cases found
      have shape := Node.combineGradient_shape combined
      rw [← gradient?_of_getElem? hc] at shape
      cases old : nodes.gradient? k i with
      | none =>
          rw [old, Node.fit_shape, ← shapeOf_of_getElem? hc] at shape
          exact .inr ⟨rfl, ⟨c, hc, taking⟩, rfl, shape⟩
      | some o =>
          rw [old] at shape
          exact .inl (congrArg some shape.symm)
    · rw [gradient?_setGradient_of_ne nodes γ' (.inl here)] at found
      exact .inl (by rw [found]; rfl)

/-- A contribution keeps the shapes of the gradients there are. -/
theorem accumulate_keeps (h : nodes.accumulate m i sign g = .ok nodes') {s : Shape}
    (found : (nodes.gradient? k i).map (·.shape) = some s) :
    (nodes'.gradient? k i).map (·.shape) = some s := by
  obtain ⟨γ, before, rfl⟩ := Option.map_eq_some_iff.mp found
  have after : (nodes'.gradient? k i).isSome :=
    (accumulate_isSome h).mpr (.inl (by rw [before]; rfl))
  obtain ⟨γ', found'⟩ := Option.isSome_iff_exists.mp after
  rcases accumulate_shape h found' with same | ⟨rfl, -, none, -⟩
  · rw [found', ← found, same]
    rfl
  · rw [before] at none
    cases none

theorem accumulate_graded (h : nodes.accumulate m i sign g = .ok nodes') (graded : nodes.Graded i)
    (settles : ((Link.shapeOf nodes m).settle g.shape).Alike (Link.shapeOf nodes m)) :
    nodes'.Graded i := by
  intro k γ found
  rw [shapeOf_of_ungraded (accumulate_ungraded h)]
  rcases accumulate_shape h found with same | ⟨rfl, -, -, shape⟩
  · obtain ⟨γ', found', eq⟩ := Option.map_eq_some_iff.mp same
    rw [← eq]
    exact graded k γ' found'
  · rw [shape]
    exact settles

/-- After a contribution the gradients fit exactly if they did before and the contribution settles to
the shape of its node, or is not taken, or not the first one. -/
theorem accumulate_fit (h : nodes.accumulate m i sign g = .ok nodes') :
    nodes'.GradientsFit i ↔ nodes.GradientsFit i ∧
      ((Link.shapeOf nodes m).settle g.shape ≠ Link.shapeOf nodes m → nodes.Takes m →
        (nodes.gradient? m i).isSome) := by
  have same := accumulate_ungraded h
  constructor
  · intro fit
    refine ⟨fit.of_kept same fun k s => accumulate_keeps h, fun strays takes => ?_⟩
    by_contra first
    rw [Option.not_isSome_iff_eq_none] at first
    have after : (nodes'.gradient? m i).isSome := (accumulate_isSome h).mpr (.inr ⟨rfl, takes⟩)
    obtain ⟨γ, found⟩ := Option.isSome_iff_exists.mp after
    rcases accumulate_shape h found with old | ⟨-, -, -, shape⟩
    · rw [first] at old
      cases old
    · exact strays (by rw [← shape, fit m γ found, shapeOf_of_ungraded same])
  · rintro ⟨fit, first⟩ k γ found
    rw [shapeOf_of_ungraded same]
    rcases accumulate_shape h found with old | ⟨rfl, takes, none, shape⟩
    · obtain ⟨γ', found', eq⟩ := Option.map_eq_some_iff.mp old
      rw [← eq, fit k γ' found']
    · rw [shape]
      by_contra strays
      have present := first strays takes
      rw [none] at present
      cases present

end Contributions

end Nodes

/-! ### The contributions of a rule -/

/-- The contribution settles to another shape than that of its node. -/
def Contribution.Strays (shape : NodeId → Shape) (c : Contribution α) : Prop :=
  (shape c.node).settle c.gradient.shape ≠ shape c.node

namespace Nodes

variable [Zero α] [Add α] [Sub α] [Neg α] {nodes : Nodes α} {i : Index}
  {cs : List (Contribution α)}

/-- Contributions that settle to shapes like those of their nodes are all made. -/
theorem contributions_graded (graded : nodes.Graded i)
    (settles : ∀ c ∈ cs,
      ((Link.shapeOf nodes c.node).settle c.gradient.shape).Alike (Link.shapeOf nodes c.node)) :
    (Outcome.each (Contribution.apply i) nodes cs).result = .ok () ∧
      (Outcome.each (Contribution.apply i) nodes cs).state.Graded i := by
  induction cs generalizing nodes with
  | nil => exact ⟨rfl, graded⟩
  | cons c cs ih =>
      have here := settles c List.mem_cons_self
      obtain ⟨nodes', made⟩ : ∃ nodes', nodes.accumulate c.node i c.sign c.gradient = .ok nodes' :=
        accumulate_of_settles graded here
      have applied : c.apply i nodes = .done nodes' () := by
        unfold Contribution.apply
        rw [made]
        rfl
      rw [Outcome.each_cons, applied]
      apply ih (accumulate_graded made graded here)
      rw [shapeOf_of_ungraded (accumulate_ungraded made)]
      exact fun d hd => settles d (List.mem_cons_of_mem _ hd)

/-- After the contributions the gradients fit exactly if they did before and each contribution that
strays is not taken, or not the first one. No two of them that stray go to one node. -/
theorem contributions_fit (apart : cs.Pairwise fun c d => d.Strays (Link.shapeOf nodes) →
      d.node ≠ c.node)
    (ok : (Outcome.each (Contribution.apply i) nodes cs).result = .ok ()) :
    (Outcome.each (Contribution.apply i) nodes cs).state.GradientsFit i ↔
      nodes.GradientsFit i ∧ ∀ c ∈ cs, c.Strays (Link.shapeOf nodes) → nodes.Takes c.node →
        (nodes.gradient? c.node i).isSome := by
  induction cs generalizing nodes with
  | nil => simp [Outcome.each]
  | cons c cs ih =>
      rw [Outcome.each_cons] at ok ⊢
      obtain ⟨⟨⟩, first, later⟩ := Outcome.andThen_ok.mp ok
      have made : nodes.accumulate c.node i c.sign c.gradient = .ok (c.apply i nodes).state :=
        Outcome.ofExcept_ok.mp first
      have same := c.apply_ungraded i nodes
      obtain ⟨here, apart⟩ := List.pairwise_cons.mp apart
      have shape := shapeOf_of_ungraded same
      rw [Outcome.andThen_of_ok first, ih (shape ▸ apart) later, shape, accumulate_fit made,
        and_assoc, List.forall_mem_cons]
      refine and_congr_right fun _ => and_congr_right fun _ => ?_
      -- What strays later goes to another node.
      refine forall₂_congr fun d hd => forall_congr' fun strays => ?_
      rw [takes_of_ungraded same, accumulate_gradient?_of_ne made (.inl (here d hd strays))]

end Nodes

/-! ### The rules -/

namespace Term

/-- The node is the second receiver of the term, and like the first one it has a single element, in
another shape. -/
def Mixes (shape : NodeId → Shape) (t : Term α NodeId) (y : NodeId) : Prop :=
  ∃ x, t.receivers = [x, y] ∧ (shape x).Mixed (shape y)

/-- What is to be shown of the rule of a term: its contributions settle to shapes like those of the
arguments, and if the gradient is exact, it is those to nodes that the term mixes that stray. -/
def Suits (shape : NodeId → Shape) (exact : Prop) (t : Term α NodeId)
    (cs : List (Contribution α)) : Prop :=
  ∀ c ∈ cs, ((shape c.node).settle c.gradient.shape).Alike (shape c.node) ∧
    (exact → (c.Strays shape ↔ t.Mixes shape c.node))

variable {shape : NodeId → Shape} {t : Term α NodeId} {x y : NodeId} {u r : Shape}
  {gx gy : Tensor α} {sign : Sign}

/-- A rule with one contribution. -/
theorem suits_of_one (receivers : t.receivers = [x]) (alike : u.Alike r)
    (spreads : (shape x).SpreadsOver r) (settles : (shape x).settle r = shape x)
    (made : gx.shape = u ∨ gx.shape = r) : t.Suits shape (u = r) [⟨x, .plus, gx⟩] := by
  intro c hc
  cases List.mem_singleton.mp hc
  refine ⟨Shape.settle_alike (alike.of_either made) spreads, ?_⟩
  rintro rfl
  have same : gx.shape = u := made.elim id id
  apply iff_of_false
  · intro strays
    exact strays (by rw [same, settles])
  · rintro ⟨z, two, -⟩
    rw [receivers] at two
    cases two

/-- A rule with two contributions, for an elementwise operation. -/
theorem suits_of_two (receivers : t.receivers = [x, y]) (alike : u.Alike r)
    (common : r = (shape x).common (shape y)) (spreadsX : (shape x).SpreadsOver r)
    (spreadsY : (shape y).SpreadsOver r) (madeX : gx.shape = u ∨ gx.shape = r)
    (madeY : gy.shape = u ∨ gy.shape = r) :
    t.Suits shape (u = r) [⟨x, .plus, gx⟩, ⟨y, sign, gy⟩] := by
  have mixes (z : NodeId) : t.Mixes shape z ↔ z = y ∧ (shape x).Mixed (shape y) := by
    unfold Mixes
    rw [receivers]
    constructor
    · rintro ⟨w, two, mixed⟩
      cases two
      exact ⟨rfl, mixed⟩
    · rintro ⟨rfl, mixed⟩
      exact ⟨x, rfl, mixed⟩
  intro c hc
  rcases List.mem_cons.mp hc with rfl | hc
  · refine ⟨Shape.settle_alike (alike.of_either madeX) spreadsX, ?_⟩
    rintro rfl
    have same : gx.shape = u := madeX.elim id id
    rw [mixes]
    subst common
    apply iff_of_false
    · intro strays
      exact strays (by rw [same, Shape.settle_first spreadsX])
    · rintro ⟨rfl, mixed⟩
      exact mixed.1 rfl
  · cases List.mem_singleton.mp hc
    refine ⟨Shape.settle_alike (alike.of_either madeY) spreadsY, ?_⟩
    rintro rfl
    have same : gy.shape = u := madeY.elim id id
    subst common
    rw [mixes, Contribution.Strays, same, Ne, Shape.settle_second, not_not]
    exact (and_iff_right rfl).symm

/-- A rule that gives each argument a contribution of its very shape. -/
theorem suits_of_exact {exact : Prop} {cs : List (Contribution α)}
    (fits : ∀ c ∈ cs, c.gradient.shape = shape c.node) (unmixed : ∀ z, ¬ t.Mixes shape z) :
    t.Suits shape exact cs := by
  intro c hc
  have settles : (shape c.node).settle c.gradient.shape = shape c.node := by
    rw [fits c hc, Shape.settle_self]
  exact ⟨.inl settles, fun _ => iff_of_false (not_not.mpr settles) (unmixed c.node)⟩

variable [Zero α] [Add α] [Sub α] [Mul α] [Div α] [BEq α]
  {read : NodeId → Except ReplayError (Tensor α)} {value : NodeId → Tensor α} {v g : Tensor α}

/-- What the rule of a term comes to when the gradient is like the result: contributions that suit
the arguments, or a divisor with a zero, or of a matrix product a gradient that is no matrix. -/
inductive Comes (shape : NodeId → Shape) (r u : Shape) (t : Term α NodeId) :
    Except ReplayError (List (Contribution α)) → Prop where
  | suits (cs : List (Contribution α)) : t.Suits shape (u = r) cs → Comes shape r u t (.ok cs)
  | zeroDivisor : Comes shape r u t (.error (.tensor .zeroDivisor))
  | notMatrix : u ≠ r → Comes shape r u t (.error (.tensor (.notMatrix .matMul u)))

omit [Sub α] in
theorem unary_comes {f : UnaryFunction α} (hx : read x = .ok (value x))
    (alike : g.shape.Alike (value x).shape) :
    Comes (fun n => (value n).shape) (value x).shape g.shape (unary f x)
      ((unary f x).contributions read g) := by
  obtain ⟨gx, made⟩ : ∃ gx, (f.slope (value x)).mul g = .ok gx :=
    Tensor.zipWith_of_spreads (.inr rfl) alike.spreadsOver
  have shape : gx.shape = (value x).shape :=
    Tensor.zipWith_right_shape made alike (.inr rfl) fun _ => rfl
  have rule : (unary f x).contributions read g = .ok [⟨x, .plus, gx⟩] :=
    bind_ok_iff.mpr ⟨_, hx, bind_ok_iff.mpr ⟨gx, ofTensor_ok.mpr made, rfl⟩⟩
  rw [rule]
  exact .suits _ (suits_of_one rfl alike (.inr rfl) (Shape.settle_self _) (.inr shape))

omit [Sub α] in
theorem binary_comes {f : BinaryFunction α} (hx : read x = .ok (value x))
    (hy : read y = .ok (value y)) (computed : f.apply (value x) (value y) = .ok v)
    (alike : g.shape.Alike v.shape) :
    Comes (fun n => (value n).shape) v.shape g.shape (binary f x y)
      ((binary f x y).contributions read g) := by
  obtain ⟨spreadsX, spreadsY, common, -⟩ := Tensor.zipWith_ok computed
  obtain ⟨slope, hslope⟩ : ∃ slope, f.slope (value x) (value y) = .ok slope :=
    Tensor.zipWith_of_spreads spreadsX spreadsY
  have same : slope.shape = v.shape := (Tensor.zipWith_ok hslope).2.2.1.trans common.symm
  obtain ⟨gx, made⟩ : ∃ gx, slope.mul g = .ok gx :=
    Tensor.zipWith_of_spreads (.inr same) alike.spreadsOver
  have shape : gx.shape = v.shape :=
    Tensor.zipWith_right_shape made alike (.inr same) fun _ => same
  have rule : (binary f x y).contributions read g = .ok [⟨x, .plus, gx⟩] :=
    bind_ok_iff.mpr ⟨_, hx, bind_ok_iff.mpr ⟨_, hy, bind_ok_iff.mpr ⟨_, ofTensor_ok.mpr hslope,
      bind_ok_iff.mpr ⟨gx, ofTensor_ok.mpr made, rfl⟩⟩⟩⟩
  have settles : (value x).shape.settle v.shape = (value x).shape := by
    rw [common] at spreadsX ⊢
    exact Shape.settle_first spreadsX
  rw [rule]
  exact .suits _ (suits_of_one rfl alike spreadsX settles (.inr shape))

omit [Sub α] in
theorem multiply_comes (hx : read x = .ok (value x)) (hy : read y = .ok (value y))
    (computed : (value x).mul (value y) = .ok v) (alike : g.shape.Alike v.shape) :
    Comes (fun n => (value n).shape) v.shape g.shape (arithmetic .multiply x y)
      ((arithmetic .multiply x y).contributions read g) := by
  obtain ⟨spreadsX, spreadsY, common, -⟩ := Tensor.zipWith_ok computed
  obtain ⟨gx, madeX⟩ : ∃ gx, g.mul (value y) = .ok gx :=
    Tensor.zipWith_of_spreads alike.spreadsOver spreadsY
  obtain ⟨gy, madeY⟩ : ∃ gy, (value x).mul g = .ok gy :=
    Tensor.zipWith_of_spreads spreadsX alike.spreadsOver
  have shapeX : gx.shape = g.shape := Tensor.zipWith_left_shape madeX alike spreadsY
  have first : v.shape.size = 1 → (value x).shape = v.shape := by
    rw [common] at spreadsY ⊢
    exact Shape.eq_common_of_single spreadsY
  have shapeY : gy.shape = v.shape := Tensor.zipWith_right_shape madeY alike spreadsX first
  have rule : (arithmetic .multiply x y).contributions read g =
      .ok [⟨x, .plus, gx⟩, ⟨y, .plus, gy⟩] :=
    bind_ok_iff.mpr ⟨_, hy, bind_ok_iff.mpr ⟨gx, ofTensor_ok.mpr madeX,
      bind_ok_iff.mpr ⟨_, hx, bind_ok_iff.mpr ⟨gy, ofTensor_ok.mpr madeY, rfl⟩⟩⟩⟩
  rw [rule]
  exact .suits _ (suits_of_two rfl alike common spreadsX spreadsY (.inl shapeX) (.inr shapeY))

omit [Sub α] in
/-- The rule of a quotient divides twice, and either divisor can have a zero. -/
theorem divide_comes (hx : read x = .ok (value x)) (hy : read y = .ok (value y))
    (computed : (value x).div (value y) = .ok v) (alike : g.shape.Alike v.shape) :
    Comes (fun n => (value n).shape) v.shape g.shape (arithmetic .divide x y)
      ((arithmetic .divide x y).contributions read g) := by
  obtain ⟨spreadsX, spreadsY, common, -⟩ := Tensor.zipWith_ok (Tensor.div_ok computed)
  obtain ⟨ga, madeA⟩ : ∃ ga, g.mul (value x) = .ok ga :=
    Tensor.zipWith_of_spreads alike.spreadsOver spreadsX
  obtain ⟨bb, square⟩ : ∃ bb, (value y).mul (value y) = .ok bb :=
    Tensor.zipWith_of_spreads (.inr rfl) (.inr rfl)
  have shapeA : ga.shape = g.shape := Tensor.zipWith_left_shape madeA alike spreadsX
  have likeA : ga.shape.Alike v.shape := shapeA ▸ alike
  have spreadsB : bb.shape.SpreadsOver v.shape := by
    rw [(Tensor.zipWith_ok square).2.2.1.trans (if_pos rfl)]
    exact spreadsY
  rcases Tensor.div_of_spreads alike.spreadsOver spreadsY with ⟨gx, madeX⟩ | zero
  · rcases Tensor.div_of_spreads likeA.spreadsOver spreadsB with ⟨gy, madeY⟩ | zero
    · have shapeX : gx.shape = g.shape :=
        Tensor.zipWith_left_shape (Tensor.div_ok madeX) alike spreadsY
      have shapeY : gy.shape = g.shape :=
        (Tensor.zipWith_left_shape (Tensor.div_ok madeY) likeA spreadsB).trans shapeA
      have rule : (arithmetic .divide x y).contributions read g =
          .ok [⟨x, .plus, gx⟩, ⟨y, .minus, gy⟩] := by
        simp only [contributions, hx, hy, madeX, madeA, square, madeY, ofTensor, bind, Except.bind]
      rw [rule]
      exact .suits _ (suits_of_two rfl alike common spreadsX spreadsY (.inl shapeX) (.inl shapeY))
    · have rule : (arithmetic .divide x y).contributions read g = .error (.tensor .zeroDivisor) := by
        simp only [contributions, hx, hy, madeX, madeA, square, zero, ofTensor, bind, Except.bind]
      rw [rule]
      exact .zeroDivisor
  · have rule : (arithmetic .divide x y).contributions read g = .error (.tensor .zeroDivisor) := by
      simp only [contributions, hx, hy, zero, ofTensor, bind, Except.bind]
    rw [rule]
    exact .zeroDivisor

omit [Sub α] in
theorem dot_comes (hx : read x = .ok (value x)) (hy : read y = .ok (value y))
    (computed : (value x).matMul (value y) = .ok v) (alike : g.shape.Alike v.shape) :
    Comes (fun n => (value n).shape) v.shape g.shape (arithmetic .dot x y)
      ((arithmetic .dot x y).contributions read g) := by
  obtain ⟨m, k, n, shapeX, shapeY, shapeV⟩ := Tensor.matMul_shape computed
  obtain ⟨bt, madeB, shapeB⟩ := Tensor.transpose_of_matrix shapeY
  obtain ⟨at', madeA, shapeA⟩ := Tensor.transpose_of_matrix shapeX
  by_cases exact : g.shape = v.shape
  · obtain ⟨gx, madeX, shapeGX⟩ := Tensor.matMul_of_matrices (exact.trans shapeV) shapeB
    obtain ⟨gy, madeY, shapeGY⟩ := Tensor.matMul_of_matrices shapeA (exact.trans shapeV)
    have rule : (arithmetic .dot x y).contributions read g =
        .ok [⟨x, .plus, gx⟩, ⟨y, .plus, gy⟩] := by
      simp only [contributions, hx, hy, madeB, madeX, madeA, madeY, ofTensor, bind, Except.bind]
    rw [rule]
    refine .suits _ (suits_of_exact ?_ ?_)
    · intro c hc
      rcases List.mem_cons.mp hc with rfl | hc
      · exact shapeGX.trans shapeX.symm
      · cases List.mem_singleton.mp hc
        exact shapeGY.trans shapeY.symm
    · -- Matrices of a single element have one shape.
      rintro w ⟨z, two, differ, single⟩
      cases two
      simp only [shapeX, shapeY] at differ single
      exact differ (Shape.Alike.eq_matrix (.inr single))
  · have noMatrix : ∀ i j, g.shape ≠ [i, j] := by
      intro i j shape
      rw [shape, shapeV] at alike exact
      exact exact alike.eq_matrix
    have rule : (arithmetic .dot x y).contributions read g =
        .error (.tensor (.notMatrix .matMul g.shape)) := by
      simp only [contributions, hx, hy, madeB, Tensor.matMul_of_not_matrix noMatrix, ofTensor, bind,
        Except.bind]
    rw [rule]
    exact .notMatrix exact

/-- The rule of every operation. -/
theorem contributions_comes {t : Term α NodeId}
    (readable : ∀ a ∈ t.arguments, read a = .ok (value a)) (computed : (t.map value).eval = .ok v)
    (alike : g.shape.Alike v.shape) :
    Comes (fun n => (value n).shape) v.shape g.shape t (t.contributions read g) := by
  have hx := readable t.first t.first_mem_arguments
  cases t with
  | unary f x =>
      cases computed
      exact unary_comes hx alike
  | binary f x c =>
      have hc := readable c (by simp [arguments, second?])
      exact binary_comes hx hc computed alike
  | arithmetic operation x y =>
      have hy := readable y (by simp [arguments, second?])
      cases operation with
      | add =>
          obtain ⟨spreadsX, spreadsY, common, -⟩ := Tensor.zipWith_ok computed
          exact .suits _ (suits_of_two rfl alike common spreadsX spreadsY (.inl rfl) (.inl rfl))
      | subtract =>
          obtain ⟨spreadsX, spreadsY, common, -⟩ := Tensor.zipWith_ok computed
          exact .suits _ (suits_of_two rfl alike common spreadsX spreadsY (.inl rfl) (.inl rfl))
      | dot => exact dot_comes hx hy computed alike
      | multiply => exact multiply_comes hx hy computed alike
      | divide => exact divide_comes hx hy computed alike

end Term

end GradientReplay
