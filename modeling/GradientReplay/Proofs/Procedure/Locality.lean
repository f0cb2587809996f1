import GradientReplay.Proofs.Procedure.Replay

/-!
What a replay at one index leaves alone.

A procedure with the values at an index and the readings of values left out (`withoutValues`) is
the same before and after a replay forward at that index, and one with the gradients there and the
readings of gradients left out (`withoutGradients`) is the same before and after a replay back:
whether the replay succeeds or stops half way, nothing else changes (`replay_local`). To forget
what an index holds therefore makes up for any replay there.
-/

namespace GradientReplay

variable {α : Type}

/-! ### Views without what an index holds -/

/-- The node without its value at an index. A constant stays as it is, shared value and all. -/
def Node.withoutValue (i : Index) (n : Node α) : Node α :=
  if n.constant then n else { n with values := n.values.erase i }

/-- The node without its gradient at an index. -/
def Node.withoutGradient (i : Index) (n : Node α) : Node α :=
  { n with gradients := n.gradients.erase i }

/-- The link without its reading of a value. -/
def Link.withoutValue (link : Link α) : Link α := { link with lastValue := none }

/-- The link without its reading of a gradient. -/
def Link.withoutGradient (link : Link α) : Link α := { link with lastGradient := none }

namespace Procedure

/-- The procedure without the values at an index and without the readings of values. -/
def withoutValues (p : Procedure α) (i : Index) : Procedure α :=
  { p with nodes := p.nodes.map (Node.withoutValue i), links := p.links.map Link.withoutValue }

/-- The procedure without the gradients at an index and without the readings of gradients. -/
def withoutGradients (p : Procedure α) (i : Index) : Procedure α :=
  { p with
    nodes := p.nodes.map (Node.withoutGradient i)
    links := p.links.map Link.withoutGradient }

end Procedure

/-! ### Writes at the index are not seen -/

theorem Node.withoutValue_setValue (n : Node α) (i : Index) (v : Tensor α) :
    (n.setValue i v).withoutValue i = n.withoutValue i := by
  unfold setValue withoutValue
  cases constant : n.constant <;> simp [constant]

theorem Node.withoutGradient_setGradient (n : Node α) (i : Index) (g : Tensor α) :
    (n.setGradient i g).withoutGradient i = n.withoutGradient i := by
  simp [setGradient, withoutGradient]

theorem Node.resetIndex_withoutValue (n : Node α) (i : Index) :
    (n.withoutValue i).resetIndex i = n.resetIndex i := by
  unfold withoutValue resetIndex
  split
  · rfl
  · simp

theorem Node.resetIndex_withoutGradient (n : Node α) (i : Index) :
    (n.withoutGradient i).resetIndex i = n.resetIndex i := by
  simp [withoutGradient, resetIndex]

theorem Link.carryAll_withoutValue [Zero α] (i : Index) (links : List (Link α))
    (nodes : Nodes α) :
    (carryAll i links nodes).1.map withoutValue = links.map withoutValue := by
  induction links generalizing nodes with
  | nil => rfl
  | cons link links ih => exact congrArg (link.withoutValue :: ·) (ih (link.carry i nodes).2)

theorem Link.giveBack_withoutGradient [Zero α] [Add α] [Sub α] [Neg α] (link : Link α) (i : Index)
    (nodes : Nodes α) :
    (link.giveBack i nodes).state.1.withoutGradient = link.withoutGradient := by
  obtain ⟨last, same⟩ := link.giveBack_link i nodes
  rw [same]
  rfl

theorem Link.giveBackAll_withoutGradient [Zero α] [Add α] [Sub α] [Neg α] (i : Index)
    (links : List (Link α)) (nodes : Nodes α) :
    (giveBackAll i links nodes).state.1.map withoutGradient = links.map withoutGradient := by
  induction links generalizing nodes with
  | nil => rfl
  | cons link links ih =>
      have first := link.giveBack_withoutGradient i nodes
      rw [giveBackAll_cons]
      split
      · exact congrArg (· :: links.map withoutGradient) first
      · exact congrArg₂ List.cons first (ih (link.giveBack i nodes).state.2)

/-! ### Replays at the index -/

namespace Procedure

theorem resetIndex_nodes_withoutValues (p : Procedure α) (i : Index) :
    ((p.withoutValues i).resetIndex i).nodes = (p.resetIndex i).nodes := by
  simp [withoutValues, resetIndex, Node.resetIndex_withoutValue]

theorem resetIndex_nodes_withoutGradients (p : Procedure α) (i : Index) :
    ((p.withoutGradients i).resetIndex i).nodes = (p.resetIndex i).nodes := by
  simp [withoutGradients, resetIndex, Node.resetIndex_withoutGradient]

section Replay

variable [Zero α] [Add α] [Sub α] [Mul α] [Div α] [Neg α] [BEq α]

omit [Neg α] in
theorem forward_withoutValues (p : Procedure α) (i : Index) (x : Tensor α) :
    (p.forward i x).state.withoutValues i = p.withoutValues i := by
  have nodes : (p.forward i x).state.nodes.map (Node.withoutValue i) =
      p.nodes.map (Node.withoutValue i) :=
    forward_map (fun n v => n.withoutValue_setValue i v) x
  have links := Link.carryAll_withoutValue i p.links p.nodes
  rw [forward_state] at nodes ⊢
  simp only [withoutValues, nodes, links]

theorem backward_withoutGradients (p : Procedure α) (i : Index) (g : Tensor α) :
    (p.backward i g).state.withoutGradients i = p.withoutGradients i := by
  have nodes : (p.backward i g).state.nodes.map (Node.withoutGradient i) =
      p.nodes.map (Node.withoutGradient i) :=
    backward_map (fun n γ => n.withoutGradient_setGradient i γ) g
  have links : (p.given i g).state.1.map Link.withoutGradient =
      p.links.map Link.withoutGradient :=
    Link.giveBackAll_withoutGradient i p.links (p.nodes.setGradient p.output i g)
  rw [backward_state]
  simp only [withoutGradients, nodes, links]

omit [Neg α] in
/-- To forget an index makes up for any replay forward there. -/
theorem forward_resetIndex_nodes (p : Procedure α) (i : Index) (x : Tensor α) :
    ((p.forward i x).state.resetIndex i).nodes = (p.resetIndex i).nodes := by
  calc ((p.forward i x).state.resetIndex i).nodes
      = (((p.forward i x).state.withoutValues i).resetIndex i).nodes :=
        (resetIndex_nodes_withoutValues _ i).symm
    _ = ((p.withoutValues i).resetIndex i).nodes := by rw [p.forward_withoutValues i x]
    _ = (p.resetIndex i).nodes := p.resetIndex_nodes_withoutValues i

/-- To forget an index makes up for any replay back there. -/
theorem backward_resetIndex_nodes (p : Procedure α) (i : Index) (g : Tensor α) :
    ((p.backward i g).state.resetIndex i).nodes = (p.resetIndex i).nodes := by
  calc ((p.backward i g).state.resetIndex i).nodes
      = (((p.backward i g).state.withoutGradients i).resetIndex i).nodes :=
        (resetIndex_nodes_withoutGradients _ i).symm
    _ = ((p.withoutGradients i).resetIndex i).nodes := by rw [p.backward_withoutGradients i g]
    _ = (p.resetIndex i).nodes := p.resetIndex_nodes_withoutGradients i

/-- Whether it succeeds or stops half way, a replay forward changes nothing but values at its
index of nodes that are no constants and the readings of values, and a replay back nothing but
gradients at its index and the readings of gradients. What is left of the nodes once the index is
forgotten is what would have been left without the replay. -/
theorem replay_local (p : Procedure α) (i : Index) (x : Tensor α) :
    ((p.forward i x).state.withoutValues i = p.withoutValues i ∧
        ((p.forward i x).state.resetIndex i).nodes = (p.resetIndex i).nodes) ∧
      (p.backward i x).state.withoutGradients i = p.withoutGradients i ∧
        ((p.backward i x).state.resetIndex i).nodes = (p.resetIndex i).nodes :=
  ⟨⟨p.forward_withoutValues i x, p.forward_resetIndex_nodes i x⟩,
    p.backward_withoutGradients i x, p.backward_resetIndex_nodes i x⟩

end Replay

end Procedure

end GradientReplay
