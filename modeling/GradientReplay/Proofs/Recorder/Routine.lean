import GradientReplay.Proofs.Recorder.Failure
import GradientReplay.Proofs.Recorder.Renaming

/-!
Routines: one sequence of computations that is built again and again.

The arguments of a routine are the declared input, tensors that stay the same, state variables, and
answers of its own calls. A round builds it once; then each state variable is set to the answer of a
call of that round. `Routine.Ready` says what the first round starts from.

Each round names its arguments by other tensors. From the second round on, all rounds agree on which
names are the same tensor; in the first one, names of one tensor are names of one tensor in all
(`Routine.Later.sameTensors`, `Routine.Ready.place_eq`).
-/

namespace GradientReplay

/-- What an argument of a routine names. -/
inductive Source (m n : Nat) where
  | input
  /-- A tensor that stays the same in all rounds. -/
  | fixed (j : Fin m)
  /-- A state variable. -/
  | state (k : Fin n)
  /-- The answer of a call of the same round. -/
  | answer (i : Nat)

/-- The name is not one of an answer. -/
def Source.Given {m n : Nat} : Source m n → Prop
  | .answer _ => False
  | _ => True

structure Routine (α : Type) (m n : Nat) where
  input : TensorId
  fixed : Fin m → TensorId
  calls : List (Term α (Source m n))
  /-- The call whose answer each state variable is set to after a round. -/
  next : Fin n → Fin calls.length
  output : Fin calls.length

/-- What a round starts from: a session, and the tensors of the state variables. -/
structure Round (α : Type) (n : Nat) where
  session : Session α
  states : Fin n → TensorId

variable {α : Type} {m n : Nat}

namespace Routine

/-- The tensor that a name stands for in a round; the answers are the next new tensors. -/
def tensorOf (q : Routine α m n) (round : Round α n) : Source m n → TensorId
  | .input => q.input
  | .fixed j => q.fixed j
  | .state k => round.states k
  | .answer i => round.session.tensors.length + i

/-- Begin a build and make all calls. -/
def computing (q : Routine α m n) (round : Round α n) : List (Call α) :=
  .begin q.input :: q.calls.map fun t => .compute (t.map (q.tensorOf round))

/-- The tensor of the output. -/
def outputOf (q : Routine α m n) (round : Round α n) : TensorId :=
  q.tensorOf round (.answer q.output)

/-- All calls of a round. -/
def steps (q : Routine α m n) (round : Round α n) : List (Call α) :=
  q.computing round ++ [.finish (q.outputOf round)]

section Rounds

variable [Zero α] [Add α] [Sub α] [Mul α] [Div α] [BEq α]

/-- The next round. -/
def after (q : Routine α m n) (round : Round α n) : Round α n :=
  ⟨round.session.run (q.steps round), fun k => q.tensorOf round (.answer (q.next k))⟩

/-- The rounds, counted from the first one. -/
def rounds (q : Routine α m n) (first : Round α n) : Nat → Round α n
  | 0 => first
  | b + 1 => q.after (q.rounds first b)

/-- The call is recorded in this round: its answer is a result of the build. -/
def Records (q : Routine α m n) (round : Round α n) (i : Fin q.calls.length) : Prop :=
  (round.session.run (q.computing round)).recorder.Gives (q.tensorOf round (.answer i))

instance (q : Routine α m n) (round : Round α n) (i : Fin q.calls.length) :
    Decidable (q.Records round i) :=
  inferInstanceAs (Decidable (Recorder.Gives _ _))

/-- The round ends with this procedure. -/
def Compiles (q : Routine α m n) (round : Round α n) (p : Procedure α) : Prop :=
  ((round.session.run (q.computing round)).recorder.finish (q.outputOf round)).result = .ok (some p)

end Rounds

/-- Where the first round may start: no build is going on, the caller holds what the routine begins
with, which is no result of a build before, and each state variable has a tensor of its own that is
used nowhere else and is not registered. -/
structure Ready (q : Routine α m n) (first : Round α n) : Prop where
  idle : first.session.recorder.current = none
  held : ∀ x : Source m n, x.Given → q.tensorOf first x < first.session.tensors.length
  fresh : ∀ x : Source m n, x.Given →
    sourceOf first.session.recorder.previous (q.tensorOf first x) = none
  own : ∀ (k : Fin n) (x : Source m n), q.tensorOf first x = first.states k → x.Given → x = .state k
  unregistered : ∀ k, first.states k ∉ first.session.recorder.constants
  /-- Only tensors that the caller holds are registered. -/
  registered : ∀ x ∈ first.session.recorder.constants, x < first.session.tensors.length

/-! ### Names in different rounds -/

/-- What a name means from the second round on. -/
inductive Place where
  /-- A tensor that the caller held before the first round. -/
  | before (x : Nat)
  /-- The answer of a call of the round before. -/
  | last (i : Nat)
  /-- The answer of a call of this round. -/
  | this (i : Nat)

def place (q : Routine α m n) : Source m n → Place
  | .input => .before q.input
  | .fixed j => .before (q.fixed j)
  | .state k => .last (q.next k)
  | .answer i => .this i

/-- The tensor at a place, if the answers of the round before and of this round are counted from
these. -/
def Place.tensor (last this : Nat) : Place → Nat
  | .before x => x
  | .last i => last + i
  | .this i => this + i

/-- The tensors from before, of which there are so many, and answers of so many calls. -/
def Place.Within (held calls : Nat) : Place → Prop
  | .before x => x < held
  | .last i => i < calls
  | .this _ => True

/-- Tensors from before come first, then the answers of the round before, then those of this one. -/
theorem Place.eq_of_tensor {held calls last this : Nat} (since : held ≤ last)
    (upTo : last + calls ≤ this) {p p' : Place} (hp : p.Within held calls)
    (hp' : p'.Within held calls) (same : p.tensor last this = p'.tensor last this) : p = p' := by
  cases p <;> cases p' <;>
    simp only [Within, tensor, Place.before.injEq, Place.last.injEq, Place.this.injEq,
      reduceCtorEq] at hp hp' same ⊢ <;>
    omega

/-- The round comes after the first one: the tensors of its state variables are answers of a round
in between, which are counted from `last`. -/
structure Later (q : Routine α m n) (first round : Round α n) (last : Nat) : Prop where
  since : first.session.tensors.length ≤ last
  upTo : last + q.calls.length ≤ round.session.tensors.length
  states : ∀ k, round.states k = last + q.next k

variable {q : Routine α m n} {first round round' : Round α n} {last last' : Nat}
  {x y : Source m n}

theorem Later.tensorOf_eq (later : q.Later first round last) (x : Source m n) :
    q.tensorOf round x = (q.place x).tensor last round.session.tensors.length := by
  cases x with
  | input | fixed | answer => rfl
  | state k => exact later.states k

theorem Ready.within (ready : q.Ready first) (x : Source m n) :
    (q.place x).Within first.session.tensors.length q.calls.length := by
  cases x with
  | input => exact ready.held .input trivial
  | fixed j => exact ready.held (.fixed j) trivial
  | state k => exact (q.next k).isLt
  | answer i => trivial

/-- In a later round, names of one tensor have one place. -/
theorem Later.tensorOf_eq_iff (later : q.Later first round last) (ready : q.Ready first) :
    q.tensorOf round x = q.tensorOf round y ↔ q.place x = q.place y := by
  rw [later.tensorOf_eq, later.tensorOf_eq]
  constructor
  · exact Place.eq_of_tensor later.since later.upTo (ready.within x) (ready.within y)
  · intro same
    rw [same]

/-- Later rounds agree on which names are the same tensor. -/
theorem Later.sameTensors (later : q.Later first round last) (later' : q.Later first round' last')
    (ready : q.Ready first) : SameTensors (q.tensorOf round) (q.tensorOf round') :=
  fun _ _ => (later.tensorOf_eq_iff ready).trans (later'.tensorOf_eq_iff ready).symm

/-- Answers are new tensors. -/
theorem Ready.not_given (ready : q.Ready first) {i : Nat}
    (same : q.tensorOf first x = q.tensorOf first (.answer i)) : ¬ x.Given := by
  intro given
  have lt := ready.held x given
  rw [same] at lt
  exact absurd lt (Nat.not_lt_of_le (Nat.le_add_right _ i))

/-- In the first round, names of one tensor have one place. -/
theorem Ready.place_eq (ready : q.Ready first) (same : q.tensorOf first x = q.tensorOf first y) :
    q.place x = q.place y := by
  cases x with
  | answer i =>
      cases y with
      | answer j => rw [Nat.add_left_cancel same]
      | input | fixed | state => exact (ready.not_given same.symm trivial).elim
  | state k =>
      cases y with
      | answer j => exact (ready.not_given same trivial).elim
      | input | fixed | state => rw [ready.own k _ same.symm trivial]
  | input | fixed =>
      cases y with
      | answer j => exact (ready.not_given same trivial).elim
      | state k => rw [ready.own k _ same trivial]
      | input | fixed => exact congrArg Place.before same

/-- Registered are the names of registered tensors from before, in every round. -/
theorem Later.registered_iff (later : q.Later first round last) (ready : q.Ready first)
    (x : Source m n) :
    q.tensorOf round x ∈ first.session.recorder.constants ↔
      q.tensorOf first x ∈ first.session.recorder.constants := by
  have new {z : TensorId} (le : first.session.tensors.length ≤ z) :
      z ∉ first.session.recorder.constants :=
    fun mem => Nat.not_le_of_lt (ready.registered z mem) le
  have since := later.since
  have upTo := later.upTo
  cases x with
  | input | fixed => exact Iff.rfl
  | state k =>
      have late : q.tensorOf round (.state k) ∉ first.session.recorder.constants := by
        refine new ?_
        rw [tensorOf, later.states]
        omega
      exact iff_of_false late (ready.unregistered k)
  | answer i =>
      refine iff_of_false (new ?_) (new ?_)
      · rw [tensorOf]
        omega
      · exact Nat.le_add_right _ _

end Routine

end GradientReplay
