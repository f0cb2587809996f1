import GradientReplay.Graph.Nodes
import GradientReplay.Outcome

/-!
Links: a state that passes from one index to the next. At an index the consumer of a link takes
the value that the producer had at the index before; going back, the producer takes the gradient
that the consumer had at the index after.

A link remembers its last reading in each direction. Where there is nothing to read it hands on
the remembered reading once, and zeros after that. The first index, which has none before it, is
such a place; the last one is not: there the index after overflows.
-/

namespace GradientReplay

structure Link (α : Type) where
  producer : NodeId
  consumer : NodeId
  /-- The last reading of the producer, if it found a value. -/
  lastValue : Option (Tensor α)
  /-- The last reading of the consumer, if it found a gradient. -/
  lastGradient : Option (Tensor α)

namespace Link

variable {α : Type}

/-- A link that has read nothing yet. -/
def create (producer consumer : NodeId) : Link α := ⟨producer, consumer, none, none⟩

/-- Forget the readings. -/
def reset (link : Link α) : Link α := create link.producer link.consumer

/-- What a link hands on: what it read, or else its last reading, or else zeros. -/
def supply [Zero α] (read last : Option (Tensor α)) (shape : Shape) : Tensor α :=
  (read <|> last).getD (.zeros shape)

/-- The shape of a node. -/
def shapeOf (nodes : Nodes α) (node : NodeId) : Shape := (nodes[node]?.map (·.shape)).getD []

/-- The consumer takes its value at an index from the producer at the index before. -/
def carry [Zero α] (link : Link α) (i : Index) (nodes : Nodes α) : Link α × Nodes α :=
  let read := i.previous?.bind (nodes.value? link.producer)
  let value := supply read link.lastValue (shapeOf nodes link.producer)
  ({ link with lastValue := read }, nodes.setValue link.consumer i value)

/-- The producer takes a contribution to its gradient at an index from the consumer at the index
after. At the last index this breaks off before anything is read. -/
def giveBack [Zero α] [Add α] [Sub α] [Neg α] (link : Link α) (i : Index) (nodes : Nodes α) :
    Outcome ReplayError (Link α × Nodes α) Unit :=
  match i.next? with
  | none => ⟨(link, nodes), .error .indexOverflow⟩
  | some next =>
      let read := nodes.gradient? link.consumer next
      let gradient := supply read link.lastGradient (shapeOf nodes link.consumer)
      let given := Outcome.ofExcept nodes (nodes.accumulate link.producer i .plus gradient)
      given.embed fun nodes => ({ link with lastGradient := read }, nodes)

/-- `carry` for each link in order. -/
def carryAll [Zero α] (i : Index) : List (Link α) → Nodes α → List (Link α) × Nodes α
  | [], nodes => ([], nodes)
  | link :: links, nodes =>
      let (link, nodes) := link.carry i nodes
      let (links, nodes) := carryAll i links nodes
      (link :: links, nodes)

/-- `giveBack` for each link in order, until one fails; the links after it stay as they are. -/
def giveBackAll [Zero α] [Add α] [Sub α] [Neg α] (i : Index) :
    List (Link α) → Nodes α → Outcome ReplayError (List (Link α) × Nodes α) Unit
  | [], nodes => .done ([], nodes) ()
  | link :: links, nodes =>
      match link.giveBack i nodes with
      | ⟨(link, nodes), .error e⟩ => ⟨(link :: links, nodes), .error e⟩
      | ⟨(link, nodes), .ok ()⟩ =>
          (giveBackAll i links nodes).embed fun (links, nodes) => (link :: links, nodes)

end Link

end GradientReplay
