import GradientReplay.Proofs.Procedure.Replay

/-!
Replays seen through a view of the nodes.

A view of a node shows an index if what the node holds there can be read through the view, and if to
store something there is to store it in the view (`Node.ShowsValues`, `Node.ShowsGradients`). What
the links and the expressions do at an index can be seen through a view that shows what they read
(`carryAll_view`, `forwardAll_view`, `giveBackAll_view`, `backwardAll_view`).
-/

namespace GradientReplay

variable {α : Type}

/-- The values at an index are read and stored through the view as without it. -/
structure Node.ShowsValues (view : Node α → Node α) (i : Index) : Prop where
  reference : ∀ n, (view n).reference = n.reference
  value? : ∀ n, (view n).value? i = n.value? i
  setValue : ∀ n v, view (n.setValue i v) = (view n).setValue i v

/-- The gradients at an index are read and stored through the view as without it. -/
structure Node.ShowsGradients (view : Node α → Node α) (i : Index) : Prop where
  reference : ∀ n, (view n).reference = n.reference
  stopped : ∀ n, (view n).stopped = n.stopped
  gradient? : ∀ n, (view n).gradient? i = n.gradient? i
  setGradient : ∀ n g, view (n.setGradient i g) = (view n).setGradient i g

variable {view : Node α → Node α} {i : Index}

/-! ### Nodes -/

namespace Nodes

theorem shapeOf_view (reference : ∀ n, (view n).reference = n.reference) (nodes : Nodes α)
    (m : NodeId) : Link.shapeOf (nodes.map view) m = Link.shapeOf nodes m := by
  unfold Link.shapeOf
  rw [List.getElem?_map, Option.map_map]
  congr 2
  funext n
  exact congrArg Tensor.shape (reference n)

section Values

variable (shows : Node.ShowsValues view i) (nodes : Nodes α)

include shows

theorem value?_view (m : NodeId) : value? (nodes.map view) m i = nodes.value? m i := by
  unfold value?
  rw [List.getElem?_map]
  cases nodes[m]? with
  | none => rfl
  | some n => exact shows.value? n

theorem readValue_view : readValue (nodes.map view) i = nodes.readValue i :=
  funext fun m => readValue_congr (value?_view shows nodes m)

theorem setValue_view (m : NodeId) (v : Tensor α) :
    setValue (nodes.map view) m i v = (nodes.setValue m i v).map view :=
  (map_modify_along (fun n => shows.setValue n v) nodes m).symm

end Values

section Gradients

variable (shows : Node.ShowsGradients view i) (nodes : Nodes α)

include shows

theorem gradient?_view (m : NodeId) : gradient? (nodes.map view) m i = nodes.gradient? m i := by
  unfold gradient?
  rw [List.getElem?_map]
  cases nodes[m]? with
  | none => rfl
  | some n => exact shows.gradient? n

theorem readGradient_view : readGradient (nodes.map view) i = nodes.readGradient i := by
  funext m
  unfold readGradient
  rw [gradient?_view shows]

theorem setGradient_view (m : NodeId) (g : Tensor α) :
    setGradient (nodes.map view) m i g = (nodes.setGradient m i g).map view :=
  (map_modify_along (fun n => shows.setGradient n g) nodes m).symm

theorem accumulate_view [Zero α] [Add α] [Sub α] [Neg α] (m : NodeId) (sign : Sign)
    (g : Tensor α) :
    accumulate (nodes.map view) m i sign g = (nodes.accumulate m i sign g).map (List.map view) := by
  by_cases taking : nodes.Takes m
  · obtain ⟨c, hc, open_⟩ := taking
    have seen : (nodes.map view)[m]? = some (view c) := by
      rw [List.getElem?_map, hc]
      rfl
    have fit : (view c).fit g = c.fit g := by
      unfold Node.fit Node.shape
      rw [shows.reference]
    rw [accumulate_of_takes hc open_, accumulate_of_takes seen ((shows.stopped c).trans open_),
      shows.gradient?, fit]
    cases Node.combineGradient sign (c.gradient? i) (c.fit g) with
    | error e => rfl
    | ok γ => exact congrArg Except.ok (setGradient_view shows nodes m γ)
  · have closed : ¬ Takes (nodes.map view) m := by
      rw [takes_iff] at taking ⊢
      simpa [Function.comp_def, shows.stopped] using taking
    rw [accumulate_of_not_takes taking, accumulate_of_not_takes closed]
    rfl

end Gradients

end Nodes

/-! ### Expressions -/

namespace Expression

variable [Zero α] [Add α] [Sub α] [Mul α] [Div α] [BEq α] (values : Node.ShowsValues view i)

include values

theorem forward_view (e : Expression α) (nodes : Nodes α) :
    e.forward i (nodes.map view) = (e.forward i nodes).map (List.map view) := by
  have evaluate : e.evaluate i (nodes.map view) = e.evaluate i nodes := by
    unfold Expression.evaluate
    rw [Nodes.readValue_view values]
  unfold forward
  rw [evaluate]
  cases e.evaluate i nodes with
  | error cause => rfl
  | ok v => exact congrArg Except.ok (Nodes.setValue_view values nodes e.result v)

theorem forwardAll_view (es : List (Expression α)) (nodes : Nodes α) :
    forwardAll i es (nodes.map view) = (forwardAll i es nodes).embed (List.map view) := by
  apply Outcome.each_embed
  intro ns e
  rw [forward_view values, Outcome.ofExcept_map]

variable [Neg α] (gradients : Node.ShowsGradients view i)

include gradients

theorem backward_view (e : Expression α) (nodes : Nodes α) :
    e.backward i (nodes.map view) = (e.backward i nodes).embed (List.map view) := by
  have contributions : e.contributions i (nodes.map view) = e.contributions i nodes := by
    unfold Expression.contributions
    rw [Nodes.readGradient_view gradients, Nodes.readValue_view values]
  unfold backward
  rw [contributions]
  cases e.contributions i nodes with
  | error cause => rfl
  | ok cs =>
      apply Outcome.each_embed
      intro ns c
      rw [Contribution.apply, Nodes.accumulate_view gradients, Outcome.ofExcept_map]
      rfl

theorem backwardAll_view (es : List (Expression α)) (nodes : Nodes α) :
    backwardAll i es (nodes.map view) = (backwardAll i es nodes).embed (List.map view) := by
  apply Outcome.each_embed
  intro ns e
  exact e.backward_view values gradients ns

end Expression

/-! ### Links -/

namespace Link

variable [Zero α]

section Carry

variable (values : Node.ShowsValues view i)
  (before : ∀ j, i.previous? = some j → Node.ShowsValues view j)

include values before

theorem carry_view (link : Link α) (nodes : Nodes α) :
    link.carry i (nodes.map view) = ((link.carry i nodes).1, (link.carry i nodes).2.map view) := by
  have read : i.previous?.bind (Nodes.value? (nodes.map view) link.producer) =
      i.previous?.bind (nodes.value? link.producer) := by
    cases previous : i.previous? with
    | none => rfl
    | some j => exact Nodes.value?_view (before j previous) nodes link.producer
  simp only [carry, read, Nodes.shapeOf_view values.reference, Nodes.setValue_view values]

theorem carryAll_view (links : List (Link α)) (nodes : Nodes α) :
    carryAll i links (nodes.map view) =
      ((carryAll i links nodes).1, (carryAll i links nodes).2.map view) := by
  induction links generalizing nodes with
  | nil => rfl
  | cons link links ih =>
      simp only [carryAll, carry_view values before, ih]

end Carry

section GiveBack

variable [Add α] [Sub α] [Neg α] (gradients : Node.ShowsGradients view i)

include gradients

/-- A link gives back through a view what it gives back without it, if it reads the same. -/
theorem giveBack_view (link : Link α) (nodes : Nodes α)
    (read : i.next?.bind (Nodes.gradient? (nodes.map view) link.consumer) =
      i.next?.bind (nodes.gradient? link.consumer)) :
    link.giveBack i (nodes.map view) =
      (link.giveBack i nodes).embed fun s => (s.1, s.2.map view) := by
  by_cases top : i = .last
  · subst top
    rfl
  · rw [giveBack_of_ne top, giveBack_of_ne top]
    simp only [handed, read, Nodes.shapeOf_view gradients.reference,
      Nodes.accumulate_view gradients, Outcome.ofExcept_map]
    rfl

theorem giveBackAll_view (read : ∀ (nodes : Nodes α) (m : NodeId),
      i.next?.bind (Nodes.gradient? (nodes.map view) m) = i.next?.bind (nodes.gradient? m))
    (links : List (Link α)) (nodes : Nodes α) :
    giveBackAll i links (nodes.map view) =
      (giveBackAll i links nodes).embed fun s => (s.1, s.2.map view) := by
  induction links generalizing nodes with
  | nil => rfl
  | cons link links ih =>
      rw [giveBackAll_cons, giveBackAll_cons,
        giveBack_view gradients link nodes (read nodes link.consumer)]
      cases result : (link.giveBack i nodes).result with
      | error e => simp [result, Outcome.embed]
      | ok b => simp [result, ih, Outcome.embed]

end GiveBack

end Link

/-! ### Procedures -/

namespace Procedure

/-- The procedure with its nodes seen through a view. -/
def seen (view : Node α → Node α) (p : Procedure α) : Procedure α :=
  { p with nodes := p.nodes.map view }

variable [Zero α] [Add α] [Sub α] [Mul α] [Div α] [BEq α]

/-- A replay forward can be seen through a view, if the links carry over through it. -/
theorem forward_view (values : Node.ShowsValues view i) (p : Procedure α)
    (carried : Link.carryAll i p.links (p.nodes.map view) =
      ((Link.carryAll i p.links p.nodes).1, (Link.carryAll i p.links p.nodes).2.map view))
    (x : Tensor α) : (p.seen view).forward i x = (p.forward i x).embed (seen view) := by
  have seeded : (p.seen view).seeded i x = (p.seeded i x).map view := by
    unfold Procedure.seeded
    rw [← Nodes.setValue_view values]
    exact congrArg (fun s => s.2.setValue p.input i x) carried
  have links : (Link.carryAll i (p.seen view).links (p.seen view).nodes).1 =
      (Link.carryAll i p.links p.nodes).1 := by
    have same := congrArg Prod.fst carried
    exact same
  have answer (run : Outcome ReplayError (Procedure α) Unit) :
      (run.embed (seen view)).andThen (fun p _ => Outcome.done p p.output) =
        (run.andThen fun p _ => .done p p.output).embed (seen view) :=
    Outcome.embed_andThen fun _ => rfl
  rw [forward_eq, forward_eq, seeded, links, ← answer]
  exact congrArg (fun run => (Outcome.embed _ run).andThen _)
    (Expression.forwardAll_view values p.forwardOrder (p.seeded i x))

variable [Neg α]

/-- A replay back can be seen through a view, if the links give back through it. -/
theorem backward_view (values : Node.ShowsValues view i) (gradients : Node.ShowsGradients view i)
    (p : Procedure α) (g : Tensor α)
    (given : Link.giveBackAll i p.links ((p.nodes.setGradient p.output i g).map view) =
      (p.given i g).embed fun s => (s.1, s.2.map view)) :
    (p.seen view).backward i g = (p.backward i g).embed (seen view) := by
  have given : (p.seen view).given i g = (p.given i g).embed fun s => (s.1, s.2.map view) := by
    rw [← given, ← Nodes.setGradient_view gradients]
    rfl
  have begun : ((p.seen view).given i g).embed
        (fun s => { p.seen view with links := s.1, nodes := s.2 }) =
      ((p.given i g).embed fun s => { p with links := s.1, nodes := s.2 }).embed (seen view) := by
    rw [given]
    rfl
  have answer (run : Outcome ReplayError (Procedure α) Unit) :
      (run.embed (seen view)).andThen (fun p _ => Outcome.done p p.input) =
        (run.andThen fun p _ => .done p p.input).embed (seen view) :=
    Outcome.embed_andThen fun _ => rfl
  rw [backward_eq, backward_eq, begun]
  apply Outcome.embed_andThen
  intro _
  rw [← answer]
  exact congrArg (fun run => (Outcome.embed _ run).andThen _)
    (Expression.backwardAll_view values gradients p.backwardOrder (p.given i g).state.2)

end Procedure

end GradientReplay
