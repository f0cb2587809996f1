import GradientReplay.Recorder.Basic
import Mathlib.Data.List.Basic

/-!
Sessions: a recorder together with the tensors that its caller holds. The identity of a tensor is
its place among them, so a new tensor takes the next identity, and a tensor changed in place keeps
its identity and its shape.

A history is a list of calls; each is carried out on the tensors it names, or does nothing if it
names one that the caller does not hold. `Session.Reached` are the sessions of all histories,
`Session.Compiled` the procedures that come out of them, and `Session.Assisted` those whose build
was recorded by computing, without a result given by hand.
-/

namespace GradientReplay

structure Session (α : Type) where
  recorder : Recorder α
  /-- The tensors that the caller holds; the one with identity `k` is at position `k`. -/
  tensors : List (Tensor α)

/-- What a caller can do. -/
inductive Call (α : Type) where
  /-- Make a tensor. -/
  | hold (t : Tensor α)
  /-- Change the contents of a tensor in place. -/
  | overwrite (id : TensorId) (t : Tensor α)
  | register (ids : List TensorId)
  | begin (input : TensorId)
  /-- Record that a term gives a result that the caller holds already. -/
  | record (term : Term α TensorId) (result : TensorId)
  /-- Compute a term, and record it where that is called for. -/
  | compute (term : Term α TensorId)
  | finish (output : TensorId)

/-- A call that gives no result by hand. -/
def Call.Assisted {α : Type} : Call α → Prop
  | .record _ _ => False
  | _ => True

instance {α : Type} (c : Call α) : Decidable c.Assisted :=
  match c with
  | .record _ _ => isFalse id
  | .hold _ | .overwrite _ _ | .register _ | .begin _ | .compute _ | .finish _ => isTrue trivial

namespace Session

variable {α : Type}

def start (name : String) : Session α := ⟨.create name, []⟩

/-- The tensor of an identity, if the caller holds it. -/
def operand (s : Session α) (id : TensorId) : Except Unit (Operand α) :=
  match s.tensors[id]? with
  | some t => .ok ⟨id, t⟩
  | none => .error ()

/-- The session after a computation: the caller holds its answer, if it gave one. -/
def keep (s : Session α) (outcome : Outcome ReplayError (Recorder α) (Operand α)) : Session α :=
  match outcome.result with
  | .ok x => ⟨outcome.state, s.tensors ++ [x.tensor]⟩
  | .error _ => { s with recorder := outcome.state }

section Calls

variable [Zero α] [Add α] [Sub α] [Mul α] [Div α] [BEq α]

/-- The session after a call, whether the call succeeded or failed. -/
def perform (s : Session α) : Call α → Session α
  | .hold t => { s with tensors := s.tensors ++ [t] }
  | .overwrite id t =>
      match s.tensors[id]? with
      | some old => if t.shape = old.shape then { s with tensors := s.tensors.set id t } else s
      | none => s
  | .register ids => { s with recorder := s.recorder.register ids }
  | .begin input =>
      match s.operand input with
      | .ok input => { s with recorder := (s.recorder.begin input).state }
      | .error _ => s
  | .record term result =>
      match term.traverse s.operand, s.operand result with
      | .ok term, .ok result => { s with recorder := (s.recorder.record term result).state }
      | _, _ => s
  | .compute term =>
      match term.traverse s.operand with
      | .ok term => s.keep (s.recorder.compute term s.tensors.length)
      | .error _ => s
  | .finish output => { s with recorder := (s.recorder.finish output).state }

/-- The session after a list of calls. -/
def run (s : Session α) (calls : List (Call α)) : Session α := calls.foldl perform s

/-- The sessions of all histories. -/
def Reached (s : Session α) : Prop := ∃ name calls, s = (start name).run calls

/-- The procedures that come out of a history. -/
def Compiled (p : Procedure α) : Prop :=
  ∃ (s : Session α) (output : TensorId), s.Reached ∧
    (s.recorder.finish output).result = .ok (some p)

/-- The procedures whose build was recorded by computing. -/
def Assisted (p : Procedure α) : Prop :=
  ∃ (s : Session α) (calls : List (Call α)) (output : TensorId), s.Reached ∧
    s.recorder.isRecording = false ∧ (∀ c ∈ calls, c.Assisted) ∧
    ((s.run calls).recorder.finish output).result = .ok (some p)

/-- What each call keeps, a history keeps. -/
theorem run_preserves {P : Session α → Prop} {calls : List (Call α)}
    (keep : ∀ c ∈ calls, ∀ s, P s → P (s.perform c)) {s : Session α} (hs : P s) :
    P (s.run calls) := by
  induction calls generalizing s with
  | nil => exact hs
  | cons c calls ih =>
      refine ih (fun d hd => keep d (List.mem_cons_of_mem c hd)) ?_
      exact keep c List.mem_cons_self s hs

theorem reached_run {s : Session α} (hs : s.Reached) (calls : List (Call α)) :
    (s.run calls).Reached := by
  obtain ⟨name, before, rfl⟩ := hs
  exact ⟨name, before ++ calls, List.foldl_append.symm⟩

theorem Assisted.compiled {p : Procedure α} (h : Assisted p) : Compiled p := by
  obtain ⟨s, calls, output, reached, -, -, finished⟩ := h
  exact ⟨s.run calls, output, reached_run reached calls, finished⟩

end Calls

/-! ### What a caller holds -/

theorem operand_ok {s : Session α} {id : TensorId} {x : Operand α} (h : s.operand id = .ok x) :
    x.id = id ∧ s.tensors[x.id]? = some x.tensor := by
  unfold operand at h
  split at h
  · rename_i t ht
    cases h
    exact ⟨rfl, ht⟩
  · cases h

/-- The arguments of a term that a caller names are tensors that the caller holds. -/
theorem traverse_operand_ok {s : Session α} {term : Term α TensorId} {u : Term α (Operand α)}
    (h : term.traverse s.operand = .ok u) : ∀ x ∈ u.arguments, s.tensors[x.id]? = some x.tensor := by
  intro x hx
  obtain ⟨id, -, hid⟩ := (Term.traverse_ok_arguments h).2 x hx
  exact (operand_ok hid).2

end Session

end GradientReplay
