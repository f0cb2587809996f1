import GradientReplay.Procedure.Basic

/-!
Replaying a whole sequence: forward in ascending order of the index, back in descending order, as
far as the first failure.
-/

namespace GradientReplay.Procedure

variable {α : Type} [Zero α] [Add α] [Sub α] [Mul α] [Div α] [Neg α] [BEq α]

/-- Replay forward at one index and answer the output there. -/
def forwardEntry (p : Procedure α) (entry : Index × Tensor α) :
    Outcome ReplayError (Procedure α) (Index × Tensor α) :=
  (p.forward entry.1 entry.2).andThen fun p _ =>
    ⟨p, (p.outputValue entry.1).map fun output => (entry.1, output)⟩

/-- Replay back at one index and answer the gradient of the input there; zeros if it has none. -/
def backwardEntry (p : Procedure α) (entry : Index × Tensor α) :
    Outcome ReplayError (Procedure α) (Index × Tensor α) :=
  (p.backward entry.1 entry.2).andThen fun p node =>
    let blank := Tensor.zeros (Link.shapeOf p.nodes node)
    .done p (entry.1, (p.nodes.gradient? node entry.1).getD blank)

/-- The outputs for a series of inputs. -/
def forwardSeries (p : Procedure α) (inputs : Series (Tensor α)) :
    Outcome ReplayError (Procedure α) (Series (Tensor α)) :=
  (Outcome.collect forwardEntry p inputs.entries).andThen fun p outputs =>
    .done p (.ofList outputs)

/-- How many entries to go back over: all of them unless a positive count is given. -/
def stepCount (steps : Option Nat) (size : Nat) : Nat :=
  match steps with
  | none | some 0 => size
  | some steps => steps

/-- The gradients of the inputs for a series of gradients of the output, over so many entries from
the last one. -/
def backwardSeries (p : Procedure α) (gradients : Series (Tensor α)) (steps : Option Nat) :
    Outcome ReplayError (Procedure α) (Series (Tensor α)) :=
  let entries := gradients.entries.reverse.take (stepCount steps gradients.size)
  (Outcome.collect backwardEntry p entries).andThen fun p found => .done p (.ofList found)

end GradientReplay.Procedure
