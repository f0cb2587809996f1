import GradientReplay.Procedure.Basic
import GradientReplay.Recorder.Flow

/-!
Recorders: a caller computes with tensors as usual, and what depends on the declared input, on a
registered constant or on a result of the build before is recorded on the way. A build compiles to
a procedure.

The first build only shows the structure; each later one is compared with the build before it, and
the results of that build that were used again become states that pass from index to index.

A call that fails leaves no trace, except that a build whose output is unknown is given up.
-/

namespace GradientReplay

structure Recorder (α : Type) where
  name : String
  /-- How many builds have been completed. -/
  builds : Nat
  /-- The build that is going on. -/
  current : Option (Recording α)
  previous : Option Predecessor
  /-- The registered constants, such as weights. -/
  constants : List TensorId

namespace Recorder

variable {α : Type}

/-- The name of a recorder that was given none. -/
def defaultName : String := "default_procedure"

def create (name : String) : Recorder α := ⟨name, 0, none, none, []⟩

def isRecording (r : Recorder α) : Bool := r.current.isSome

/-- Register constants for all builds to come. -/
def register (r : Recorder α) (tensors : List TensorId) : Recorder α :=
  { r with constants := r.constants ++ tensors }

/-- Begin a build with its declared input. -/
def begin (r : Recorder α) (input : Operand α) : Outcome ReplayError (Recorder α) Unit :=
  match r.current with
  | some _ => ⟨r, .error .alreadyRecording⟩
  | none => .done { r with current := some (.start r.builds input) } ()

/-! ### Recording -/

/-- Record that a term gives a result; the answer is the number of the expression. -/
def record (r : Recorder α) (term : Term α (Operand α)) (result : Operand α) :
    Outcome ReplayError (Recorder α) ExpressionId :=
  match r.current with
  | none => ⟨r, .error .notRecording⟩
  | some recording =>
      match recording.record r.previous term result with
      | .error cause => ⟨r, .error cause⟩
      | .ok (recording, id) => .done { r with current := some recording } id

/-- Does what depends on this tensor have to be recorded? It does if the tensor is bound in the
build that is going on, a registered constant, or a result of the build before. -/
def attached (r : Recorder α) (tensor : TensorId) : Bool :=
  match r.current with
  | none => false
  | some recording =>
      recording.arena.binds tensor || r.constants.contains tensor ||
        r.previous.any (·.produced tensor)

/-- Compute a term, and record it if some argument is attached; the result takes the fresh
identity. -/
def compute [Zero α] [Add α] [Sub α] [Mul α] [Div α] [BEq α] (r : Recorder α)
    (term : Term α (Operand α)) (fresh : TensorId) :
    Outcome ReplayError (Recorder α) (Operand α) :=
  match (term.map (·.tensor)).eval with
  | .error cause => ⟨r, .error (.tensor cause)⟩
  | .ok value =>
      let result : Operand α := ⟨fresh, value⟩
      if term.arguments.any fun x => r.attached x.id then
        (r.record term result).andThen fun r _ => .done r result
      else .done r result

/-! ### Compilation -/

/-- The nodes that can be asked for by tensor: output, input and registered constants. -/
def boundNodes (constants : List TensorId) (recording : Recording α) (output : TensorId)
    (outputNode : NodeId) : List (TensorId × NodeId) :=
  (output, outputNode) :: (recording.input, recording.inputNode) ::
    constants.filterMap fun tensor => (recording.arena.find? tensor).map fun node => (tensor, node)

/-- The procedure of a build, seen against the build before it. -/
def compile (name : String) (constants : List TensorId) (previous : Predecessor)
    (recording : Recording α) (output : TensorId) (outputNode : NodeId) : Procedure α where
  name
  forwardOrder := recording.expressions
  backwardOrder := backwardOrder recording.expressions outputNode
  input := recording.inputNode
  output := outputNode
  links := stateLinks previous.arities recording.arena.nodes recording.expressions
  nodes := recording.arena.nodes
  bound := boundNodes constants recording output outputNode

/-- End the build. The first completed build gives no procedure. -/
def finish (r : Recorder α) (output : TensorId) :
    Outcome ReplayError (Recorder α) (Option (Procedure α)) :=
  match r.current with
  | none => ⟨r, .error .nothingToFinish⟩
  | some recording =>
      match recording.arena.find? output with
      | none => ⟨{ r with current := none }, .error .outputUnbound⟩
      | some node =>
          .done
            { r with
              builds := r.builds + 1
              current := none
              previous := some recording.summarize }
            (r.previous.map fun previous =>
              compile r.name r.constants previous recording output node)

end Recorder

end GradientReplay
