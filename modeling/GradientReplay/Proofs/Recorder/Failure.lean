import GradientReplay.Proofs.Recorder.Computation

/-!
What failed calls leave behind.

A call that fails changes nothing (`Session.perform_of_failed`), except that a build whose output is
unknown is given up. A build touches nothing of the recorder but itself until it is ended, so giving
it up leaves the session where it would be if the build had never been begun
(`Session.run_given_up`). Hence a recorder counts the builds that were ended successfully, and only
the first of them gives no procedure (`Session.failures_leave_no_trace`).
-/

namespace GradientReplay

variable {α : Type}

/-! ### How calls turn out -/

/-- A call that begins a build, or tries to. -/
def Call.Begins : Call α → Prop
  | .begin _ => True
  | _ => False

instance (c : Call α) : Decidable c.Begins :=
  match c with
  | .begin _ => isTrue trivial
  | .hold _ | .overwrite _ _ | .register _ | .record _ _ | .compute _ | .finish _ => isFalse id

namespace Recorder

/-- The recorder without the build that is going on. -/
def idle (recorder : Recorder α) : Recorder α := { recorder with current := none }

theorem idle_of_current {recorder : Recorder α} (current : recorder.current = none) :
    recorder.idle = recorder := by
  obtain ⟨name, builds, _, previous, constants⟩ := recorder
  cases current
  rfl

theorem builds_of_idle {recorder after : Recorder α} (same : after.idle = recorder.idle) :
    after.builds = recorder.builds := by
  have builds := congrArg Recorder.builds same
  exact builds

/-! Beginning a build and recording touch nothing but the build that is going on. -/

@[simp] theorem begin_idle (recorder : Recorder α) (input : Operand α) :
    (recorder.begin input).state.idle = recorder.idle := by
  unfold begin
  split <;> rfl

@[simp] theorem record_idle (recorder : Recorder α) (u : Term α (Operand α)) (y : Operand α) :
    (recorder.record u y).state.idle = recorder.idle := by
  rcases recorder.record_cases u y with ⟨cause, eq⟩ | ⟨r, r', id, -, -, eq⟩
  · rw [eq]
  · rw [eq]
    rfl

@[simp] theorem compute_idle [Zero α] [Add α] [Sub α] [Mul α] [Div α] [BEq α]
    (recorder : Recorder α) (u : Term α (Operand α)) (fresh : TensorId) :
    (recorder.compute u fresh).state.idle = recorder.idle := by
  rcases recorder.compute_cases u fresh with same | ⟨value, -, eq, -⟩
  · rw [same]
  · rw [eq, record_idle]

theorem begin_of_failed {recorder : Recorder α} {input : Operand α} {cause : ReplayError}
    (failed : (recorder.begin input).result = .error cause) :
    (recorder.begin input).state = recorder := by
  unfold begin at failed ⊢
  split at failed
  · rfl
  · cases failed

theorem record_of_failed {recorder : Recorder α} {u : Term α (Operand α)} {y : Operand α}
    {cause : ReplayError} (failed : (recorder.record u y).result = .error cause) :
    (recorder.record u y).state = recorder := by
  rcases recorder.record_cases u y with ⟨cause', eq⟩ | ⟨r, r', id, -, -, eq⟩
  · rw [eq]
  · rw [eq] at failed
    cases failed

theorem compute_of_failed [Zero α] [Add α] [Sub α] [Mul α] [Div α] [BEq α]
    {recorder : Recorder α} {u : Term α (Operand α)} {fresh : TensorId} {cause : ReplayError}
    (failed : (recorder.compute u fresh).result = .error cause) :
    (recorder.compute u fresh).state = recorder := by
  rcases recorder.compute_cases u fresh with same | ⟨value, -, -, answer⟩
  · exact same
  · rw [answer] at failed
    cases failed

theorem finish_of_idle {recorder : Recorder α} (current : recorder.current = none)
    (output : TensorId) : (recorder.finish output).state = recorder := by
  simp only [finish, current]

/-- A build whose output is unknown is given up. -/
theorem finish_of_unbound {recorder : Recorder α} {output : TensorId}
    (failed : (recorder.finish output).result = .error .outputUnbound) :
    (recorder.finish output).state = recorder.idle := by
  unfold finish at failed ⊢
  split at failed
  · cases failed
  · split at failed
    · rfl
    · cases failed

end Recorder

namespace Session

variable [Zero α] [Add α] [Sub α] [Mul α] [Div α] [BEq α] {s : Session α}

/-- How a call turns out. A call that names a tensor that the caller does not hold is not made. -/
def verdict (s : Session α) : Call α → Option (Except ReplayError Unit)
  | .hold _ | .overwrite _ _ | .register _ => some (.ok ())
  | .begin input =>
      match s.operand input with
      | .ok input => some (s.recorder.begin input).result
      | .error _ => none
  | .record term result =>
      match term.traverse s.operand, s.operand result with
      | .ok term, .ok result => some ((s.recorder.record term result).result.map fun _ => ())
      | _, _ => none
  | .compute term =>
      match term.traverse s.operand with
      | .ok term => some ((s.recorder.compute term s.tensors.length).result.map fun _ => ())
      | .error _ => none
  | .finish output => some ((s.recorder.finish output).result.map fun _ => ())

/-- All calls are made, and none fails. -/
def Succeeds : Session α → List (Call α) → Prop
  | _, [] => True
  | s, c :: calls => s.verdict c = some (.ok ()) ∧ (s.perform c).Succeeds calls

/-- A computation that succeeds has a value. -/
theorem value_of_verdict {term : Term α TensorId}
    (succeeded : s.verdict (.compute term) = some (.ok ())) :
    ∃ u value, term.traverse s.operand = .ok u ∧ (u.map (·.tensor)).eval = .ok value := by
  simp only [verdict] at succeeded
  split at succeeded
  · rename_i u named
    cases computed : (u.map (·.tensor)).eval with
    | ok value => exact ⟨u, value, named, computed⟩
    | error cause =>
        rw [Recorder.compute_of_error s.recorder s.tensors.length computed] at succeeded
        cases succeeded
  · cases succeeded

theorem succeeds_append {calls more : List (Call α)} :
    s.Succeeds (calls ++ more) ↔ s.Succeeds calls ∧ (s.run calls).Succeeds more := by
  induction calls generalizing s with
  | nil => simp [Succeeds, run]
  | cons c calls ih =>
      simp only [List.cons_append, Succeeds, ih, and_assoc]
      rfl

/-- What is an error without the answer was one with it. -/
theorem error_of_map {ε β γ : Type} {f : β → γ} {x : Except ε β} {cause : ε}
    (h : x.map f = .error cause) : x = .error cause := by
  cases x with
  | error e =>
      cases h
      rfl
  | ok b => cases h

/-- A call that fails changes nothing, unless it gives a build up. -/
theorem perform_of_failed {c : Call α} {cause : ReplayError}
    (failed : s.verdict c = some (.error cause))
    (idle : c.Finishes → s.recorder.current = none) : s.perform c = s := by
  cases c with
  | hold t | overwrite id t | register ids => cases failed
  | begin input =>
      simp only [verdict] at failed
      split at failed
      · rename_i x named
        simp only [perform, named, Recorder.begin_of_failed (Option.some.inj failed)]
      · cases failed
  | record term result =>
      simp only [verdict] at failed
      split at failed
      · rename_i u y named there
        have failed := error_of_map (Option.some.inj failed)
        simp only [perform, named, there, Recorder.record_of_failed failed]
      · cases failed
  | compute term =>
      simp only [verdict] at failed
      split at failed
      · rename_i u named
        have failed := error_of_map (Option.some.inj failed)
        simp only [perform, named, keep, failed, Recorder.compute_of_failed failed]
      · cases failed
  | finish output =>
      simp only [perform, Recorder.finish_of_idle (idle trivial)]

/-! ### Builds that are given up -/

omit [Zero α] [Add α] [Sub α] [Mul α] [Div α] [BEq α] in
/-- The session without the build that is going on. -/
def idled (s : Session α) : Session α := { s with recorder := s.recorder.idle }

omit [Zero α] [Add α] [Sub α] [Mul α] [Div α] [BEq α] in
theorem idled_of_current (current : s.recorder.current = none) : s.idled = s := by
  rw [idled, Recorder.idle_of_current current]

omit [Zero α] [Add α] [Sub α] [Mul α] [Div α] [BEq α] in
theorem idled_keep (s : Session α) (outcome : Outcome ReplayError (Recorder α) (Operand α)) :
    (s.keep outcome).idled = s.keep ⟨outcome.state.idle, outcome.result⟩ := by
  obtain ⟨state, result⟩ := outcome
  cases result <;> rfl

theorem begin_idled (s : Session α) (input : TensorId) :
    (s.perform (.begin input)).idled = s.idled := by
  simp only [perform]
  split
  · rw [idled, Recorder.begin_idle]
    rfl
  · rfl

/-- A computation gives the same answer whether a build is going on or not. -/
theorem compute_answer_idled (reached : s.Reached) {u : Term α (Operand α)}
    (hold : ∀ x ∈ u.arguments, s.tensors[x.id]? = some x.tensor) :
    s.idled.recorder.compute u s.idled.tensors.length =
      ⟨s.idled.recorder, (s.recorder.compute u s.tensors.length).result⟩ := by
  obtain ⟨name, calls, rfl⟩ := id reached
  have follows := reached_follows name calls
  have live := computes_of_operands (reached_valid reached) follows
    (fun r current => reached_used reached current) hold
  have idle : Computes ((start name).lastEnded calls) ((start name).run calls).idled u := by
    refine computes_of_operands (s := ((start name).run calls).idled) ?_ ⟨follows.precedes, ?_⟩ ?_
      hold
    · rintro _ ⟨⟩
    · rintro _ ⟨⟩
    · rintro _ ⟨⟩
  have state := idle.unrecorded (by rintro _ ⟨⟩)
  have answer := idle.answer.trans live.answer.symm
  exact congr (congrArg Outcome.mk state) answer

/-- Between the beginning and the end of a build, a call that does not begin one does the same to
everything else whether the build is going on or not. -/
theorem perform_idled (reached : s.Reached) {c : Call α} (begins : ¬ c.Begins)
    (finishes : ¬ c.Finishes) : (s.perform c).idled = s.idled.perform c := by
  cases c with
  | hold t => rfl
  | overwrite id t =>
      simp only [perform, idled]
      split
      · split <;> rfl
      · rfl
  | register ids => rfl
  | begin input => exact absurd trivial begins
  | record term result =>
      have operand : s.idled.operand = s.operand := rfl
      simp only [perform, operand]
      split
      · rw [idled, Recorder.record_idle]
        rfl
      · rfl
  | compute term =>
      have operand : s.idled.operand = s.operand := rfl
      simp only [perform, operand]
      split
      · rename_i u named
        rw [idled_keep, Recorder.compute_idle]
        exact congrArg s.idled.keep (compute_answer_idled reached (traverse_operand_ok named)).symm
      · rfl
  | finish output => exact absurd trivial finishes

/-- What is done while a build is going on is done to everything else as if none had been begun. -/
theorem run_idled (reached : s.Reached) {calls : List (Call α)}
    (within : ∀ c ∈ calls, ¬ c.Finishes) :
    (s.run calls).idled = s.idled.run (calls.filter (¬ ·.Begins)) := by
  induction calls generalizing s with
  | nil => rfl
  | cons c calls ih =>
      have rest := ih (reached_run reached [c]) fun d hd => within d (List.mem_cons_of_mem c hd)
      refine rest.trans ?_
      by_cases begins : c.Begins
      · obtain ⟨input, rfl⟩ : ∃ input, c = .begin input := by
          cases c with
          | begin input => exact ⟨input, rfl⟩
          | hold | overwrite | register | record | compute | finish => cases begins
        rw [List.filter_cons_of_neg (by simp [begins])]
        exact congrArg (Session.run · _) (s.begin_idled input)
      · rw [List.filter_cons_of_pos (by simp [begins])]
        exact congrArg (Session.run · _)
          (perform_idled reached begins (within c List.mem_cons_self))

/-- A build whose output is unknown at its end leaves the session where it would be without its
beginning and its end. -/
theorem run_given_up (reached : s.Reached) (idle : s.recorder.current = none) {input output : TensorId}
    {calls : List (Call α)} (within : ∀ c ∈ calls, ¬ c.Finishes)
    (failed : ((s.run (.begin input :: calls)).recorder.finish output).result =
      .error .outputUnbound) :
    s.run (.begin input :: calls ++ [.finish output]) = s.run (calls.filter (¬ ·.Begins)) := by
  have ended : s.run (.begin input :: calls ++ [.finish output]) =
      (s.run (.begin input :: calls)).idled := by
    rw [run_concat, perform, Recorder.finish_of_unbound failed]
    rfl
  have begun : ∀ c ∈ Call.begin input :: calls, ¬ c.Finishes := by
    intro c hc
    rcases List.mem_cons.mp hc with rfl | hc
    · exact fun finishes => finishes
    · exact within c hc
  rw [ended, run_idled reached begun, idled_of_current idle,
    List.filter_cons_of_neg (by simp [Call.Begins])]

/-! ### Counting builds -/

/-- How many builds are ended successfully by these calls. -/
def endings (s : Session α) : List (Call α) → Nat
  | [] => 0
  | c :: calls => (s.ends c).toList.length + (s.perform c).endings calls

/-- A call raises the count by the build that it ends. -/
theorem perform_builds (s : Session α) (c : Call α) :
    (s.perform c).recorder.builds = s.recorder.builds + (s.ends c).toList.length := by
  cases c with
  | hold t => rfl
  | overwrite id t =>
      simp only [perform]
      split
      · split <;> rfl
      · rfl
  | register ids => rfl
  | begin input =>
      exact Recorder.builds_of_idle (congrArg Session.recorder (s.begin_idled input))
  | record term result =>
      simp only [perform]
      split
      · exact Recorder.builds_of_idle (s.recorder.record_idle _ _)
      · rfl
  | compute term =>
      simp only [perform]
      split
      · rw [keep_recorder]
        exact Recorder.builds_of_idle (s.recorder.compute_idle _ _)
      · rfl
  | finish output =>
      cases current : s.recorder.current with
      | none => simp [perform, ends, Recorder.finish, current]
      | some r =>
          cases found : r.arena.find? output with
          | none => simp [perform, ends, Recorder.finish, current, found]
          | some node => simp [perform, ends, Recorder.finish, current, found, Outcome.done]

theorem builds_run (s : Session α) (calls : List (Call α)) :
    (s.run calls).recorder.builds = s.recorder.builds + s.endings calls := by
  induction calls generalizing s with
  | nil => rfl
  | cons c calls ih =>
      refine (ih (s.perform c)).trans ?_
      rw [perform_builds, endings, Nat.add_assoc]

/-- There is a build that was ended last if any was ended. -/
theorem lastEnded_eq_none_iff (s : Session α) (calls : List (Call α)) :
    s.lastEnded calls = none ↔ s.endings calls = 0 := by
  induction calls generalizing s with
  | nil => simp [lastEnded, endings]
  | cons c calls ih =>
      simp only [lastEnded, endings, Option.or_eq_none_iff, ih, Nat.add_eq_zero_iff,
        List.length_eq_zero_iff, Option.toList_eq_nil_iff]
      exact and_comm

/-- An end gives no procedure exactly if it is the first one that succeeds. -/
theorem finish_none_iff (name : String) (calls : List (Call α)) (output : TensorId) :
    (((start name).run calls).recorder.finish output).result = .ok none ↔
      (∃ answer, (((start name).run calls).recorder.finish output).result = .ok answer) ∧
        (start name).endings calls = 0 := by
  have previous := (reached_follows name calls).precedes.summary
  rw [← lastEnded_eq_none_iff]
  constructor
  · intro finished
    obtain ⟨r, node, -, -, answer⟩ := Recorder.finish_answer finished
    have first := Option.map_eq_none_iff.mp answer.symm
    rw [previous] at first
    exact ⟨⟨none, finished⟩, Option.map_eq_none_iff.mp first⟩
  · rintro ⟨⟨answer, finished⟩, first⟩
    obtain ⟨r, node, -, -, rfl⟩ := Recorder.finish_answer finished
    rw [finished, previous, first]
    rfl

/-! ### Histories -/

/-- After every history: a call that fails leaves the session as it was, unless it ends a build; a
build whose output is unknown at its end leaves the recorder idle and the session, for all that
follows, where it would be without the beginning and the end of that build; the count of builds is
the number of ends that succeeded; and an end gives no procedure exactly if it is the first of
these. -/
theorem failures_leave_no_trace (name : String) (calls : List (Call α)) :
    let s := (start name).run calls
    (∀ c cause, s.verdict c = some (.error cause) →
      (c.Finishes → s.recorder.current = none) → s.perform c = s) ∧
    (∀ input build output, s.recorder.current = none → (∀ c ∈ build, ¬ c.Finishes) →
      ((s.run (.begin input :: build)).recorder.finish output).result = .error .outputUnbound →
        (s.run (.begin input :: build ++ [.finish output])).recorder.current = none ∧
        ∀ after, s.run (.begin input :: build ++ .finish output :: after) =
          s.run (build.filter (¬ ·.Begins) ++ after)) ∧
    s.recorder.builds = (start name).endings calls ∧
    ∀ output, (s.recorder.finish output).result = .ok none ↔
      (∃ answer, (s.recorder.finish output).result = .ok answer) ∧
        (start name).endings calls = 0 := by
  have reached : ((start name).run calls).Reached := ⟨name, calls, rfl⟩
  refine ⟨fun c cause => perform_of_failed, ?_, ?_, finish_none_iff name calls⟩
  · intro input build output idle within failed
    refine ⟨?_, fun after => ?_⟩
    · rw [run_concat, perform, Recorder.finish_of_unbound failed]
      rfl
    · have same := run_given_up reached idle within failed
      rw [List.append_cons, run_append, same, run_append]
  · rw [builds_run]
    exact Nat.zero_add _

/-- One build of `y = x + x`, beside a tensor of another shape. -/
def doubleCalls : List (Call Int) :=
  [.hold (.fill [2] 3), .hold (.fill [3] 1), .begin 0, .compute (.arithmetic .add 0 0), .finish 2]

/-- A sum of tensors that do not fit leaves nothing behind, and so does a build with an attempt to
begin another one whose output is unknown, except for the tensor that it computed. -/
theorem double_failures :
    let s := (start "double").run doubleCalls
    (∃ cause, s.verdict (.compute (.arithmetic .add 0 1)) = some (.error cause)) ∧
      s.perform (.compute (.arithmetic .add 0 1)) = s ∧
      s.run [.begin 0, .begin 1, .compute (.arithmetic .add 2 0), .finish 9, .begin 1] =
        s.run [.compute (.arithmetic .add 2 0), .begin 1] ∧
      s.recorder.builds = 1 := by
  obtain ⟨failed, givenUp, counted, -⟩ := failures_leave_no_trace "double" doubleCalls
  refine ⟨⟨_, rfl⟩, failed _ _ rfl (fun finishes => finishes.elim), ?_, counted⟩
  exact (givenUp 0 [.begin 1, .compute (.arithmetic .add 2 0)] 9 rfl (by decide) rfl).2 [.begin 1]

end Session

end GradientReplay
