import GradientReplay.Proofs.Recorder.Building

/-!
A round of a routine as a history.

While the calls of a round succeed one after the other, the build that is going on is what they make
of it, and all else of the recorder stays as it was (`Routine.Underway`). So a round whose calls all
succeed is built (`Routine.exists_built`). What the next round sees of it are the calls that it
recorded (`Routine.Built.sees`), and these are the calls whose answers are results of the build
(`Routine.Built.records_iff`).
-/

namespace GradientReplay

variable {α : Type} {m n : Nat}

/-! ### Numbered lists -/

/-- What is listed has a number. -/
theorem lookup_zipIdx_isSome {L : List Nat} {k i : Nat} :
    ((L.zipIdx k).lookup i).isSome = true ↔ i ∈ L := by
  induction L generalizing k with
  | nil => simp
  | cons a L ih =>
      rw [List.zipIdx_cons, List.lookup_cons]
      by_cases h : i = a
      · simp [h]
      · have ne : (i == a) = false := by simpa using h
        simp [ne, h, ih]

/-- Looking a number up among numbers that are counted from `last`. -/
theorem lookup_shifted (last z : Nat) (ps : List (Nat × Nat)) :
    (ps.map fun p => (last + p.1, p.2)).lookup z =
      if last ≤ z then ps.lookup (z - last) else none := by
  induction ps with
  | nil => simp
  | cons p ps ih =>
      rw [List.map_cons, List.lookup_cons, List.lookup_cons, ih]
      by_cases le : last ≤ z
      · have same : (z == last + p.1) = (z - last == p.1) := by
          rw [Bool.eq_iff_iff, beq_iff_eq, beq_iff_eq]
          omega
        simp [le, same]
      · have ne : (z == last + p.1) = false := by
          rw [beq_eq_false_iff_ne]
          omega
        simp [le, ne]

/-! ### Rounds as histories -/

/-- A step leaves the summary of the build that was ended last, or puts that of the build that was
going on in its place. -/
theorem Recorder.Step.previous_cases {recorder after : Recorder α} {ended : Option (Recording α)}
    (step : recorder.Step ended after) :
    after.previous = recorder.previous ∨
      ∃ r, recorder.current = some r ∧ after.previous = some r.summarize := by
  cases step with
  | aside current previous => exact .inl previous
  | begin | record | giveUp => exact .inl rfl
  | finish current => exact .inr ⟨_, current, rfl⟩

namespace Session

variable [Zero α] [Add α] [Sub α] [Mul α] [Div α] [BEq α] {s : Session α}

/-- Tensors are only ever added. -/
theorem tensors_length_le (s : Session α) (c : Call α) :
    s.tensors.length ≤ (s.perform c).tensors.length := by
  cases c with
  | hold t => simp [perform]
  | overwrite id t =>
      simp only [perform]
      split
      · split <;> simp
      · exact le_rfl
  | register ids => exact le_rfl
  | begin input =>
      simp only [perform]
      split <;> exact le_rfl
  | record term result =>
      simp only [perform]
      split <;> exact le_rfl
  | compute term =>
      simp only [perform]
      split
      · simp only [keep]
        split <;> simp
      · exact le_rfl
  | finish output => exact le_rfl

/-- The results of the build that was ended last are tensors that the caller holds. -/
theorem reached_sourceOf (reached : s.Reached) {x : TensorId}
    (h : (sourceOf s.recorder.previous x).isSome = true) : x < s.tensors.length := by
  obtain ⟨name, calls, rfl⟩ := reached
  suffices all : ((start name).run calls).Reached ∧ ∀ x,
      (sourceOf ((start name).run calls).recorder.previous x).isSome = true →
        x < ((start name).run calls).tensors.length from all.2 x h
  refine run_preserves (P := fun s => s.Reached ∧ ∀ x,
    (sourceOf s.recorder.previous x).isSome = true → x < s.tensors.length) ?_ ?_
  · rintro c - s ⟨reached, held⟩
    refine ⟨reached_run reached [c], fun x h => ?_⟩
    refine lt_of_lt_of_le ?_ (s.tensors_length_le c)
    rcases (s.perform_step c).previous_cases with same | ⟨r, current, ended⟩
    · rw [same] at h
      exact held x h
    · rw [ended] at h
      obtain ⟨j, found⟩ := Option.isSome_iff_exists.mp h
      obtain ⟨last, placed⟩ := reached_placed reached current
      obtain ⟨e, -, there⟩ := (placed.gives x j).mp found
      obtain ⟨-, t, -, held, -⟩ := (reached_valid reached r current).arena.bound x _ there
      exact (List.getElem?_eq_some_iff.mp held).1
  · refine ⟨⟨name, [], rfl⟩, fun x h => ?_⟩
    cases h

end Session

namespace Routine

variable [Zero α] [Add α] [Sub α] [Mul α] [Div α] [BEq α] {q : Routine α m n} {round : Round α n}
  {s : Session α} {first r : Recording α} {i : Nat} {L : List Nat}

/-- In this session `i` calls of the round have been made, of which `L` were recorded, and the build
that began as `first` is `r`. -/
structure Underway (q : Routine α m n) (round : Round α n) (first : Recording α) (i : Nat)
    (L : List Nat) (r : Recording α) (s : Session α) : Prop where
  reached : s.Reached
  building : Building q (q.tensorOf round) round.session.recorder.previous
    round.session.recorder.constants first i L r
  recorder : s.recorder = { round.session.recorder with current := some r }
  length : s.tensors.length = round.session.tensors.length + i

/-- A call that succeeds is recorded or passed. -/
theorem Underway.compute (h : Underway q round first i L r s) {t : Term α (Source m n)}
    (call : q.calls[i]? = some t)
    (succeeded : s.verdict (.compute (t.map (q.tensorOf round))) = some (.ok ())) :
    ∃ L' r', Underway q round first (i + 1) L' r'
      (s.perform (.compute (t.map (q.tensorOf round)))) := by
  have current : s.recorder.current = some r := by rw [h.recorder]
  have previous : s.recorder.previous = round.session.recorder.previous := by rw [h.recorder]
  have constants : s.recorder.constants = round.session.recorder.constants := by rw [h.recorder]
  have after : (s.perform (.compute (t.map (q.tensorOf round)))).Reached :=
    Session.reached_run h.reached [.compute (t.map (q.tensorOf round))]
  obtain ⟨u, value, named, computed⟩ := Session.value_of_verdict succeeded
  have names := Session.map_id_of_traverse named
  have attached_iff : (∃ x ∈ u.arguments, s.recorder.attached x.id = true) ↔
      ∃ x ∈ t.arguments, r.Attached round.session.recorder.previous
        round.session.recorder.constants (q.tensorOf round x) := by
    have named_iff : (∃ z ∈ u.arguments.map (·.id), s.recorder.attached z = true) ↔
        ∃ z ∈ t.arguments.map (q.tensorOf round), s.recorder.attached z = true := by
      rw [Building.map_id_arguments names]
    simpa only [List.mem_map, exists_exists_and_eq_and, Recording.attached_iff current, previous,
      constants] using named_iff
  simp only [Session.perform, named] at after ⊢
  rcases Session.compute_of_value (Session.reached_valid h.reached)
    (Session.traverse_operand_ok named) computed with
    ⟨r₀, r', id, current₀, attached, recorded, eq⟩ | ⟨detached, eq⟩
  · cases current.symm.trans current₀
    rw [previous] at recorded
    refine ⟨L ++ [i], r', after, ?_, ?_, ?_⟩
    · exact .record h.building call names h.length (attached_iff.mp attached) recorded
    · rw [Session.keep_recorder, eq, h.recorder]
      rfl
    · simp only [Session.keep, eq, Outcome.done, List.length_append, List.length_singleton]
      rw [h.length, Nat.add_assoc]
  · refine ⟨L, r, after, ?_, ?_, ?_⟩
    · exact .pass h.building call (mt attached_iff.mpr detached)
    · rw [Session.keep_recorder, eq]
      exact h.recorder
    · simp only [Session.keep, eq, Outcome.done, List.length_append, List.length_singleton]
      rw [h.length, Nat.add_assoc]

/-- Calls that succeed one after the other. -/
theorem Underway.run (h : Underway q round first i L r s) {ts : List (Term α (Source m n))}
    (rest : q.calls.drop i = ts)
    (succeeds : s.Succeeds (ts.map fun t => .compute (t.map (q.tensorOf round)))) :
    ∃ L' r', Underway q round first (i + ts.length) L' r'
      (s.run (ts.map fun t => .compute (t.map (q.tensorOf round)))) := by
  induction ts generalizing s i L r with
  | nil => exact ⟨L, r, h⟩
  | cons t ts ih =>
      obtain ⟨succeeded, succeeds⟩ := succeeds
      have call : q.calls[i]? = some t := by
        rw [← List.head?_drop, rest, List.head?_cons]
      have rest' : q.calls.drop (i + 1) = ts := by
        rw [← List.tail_drop, rest, List.tail_cons]
      obtain ⟨L₁, r₁, h₁⟩ := h.compute call succeeded
      have later := ih h₁ rest' succeeds
      rw [Nat.add_assoc, Nat.add_comm 1] at later
      exact later

/-- In this round the calls `L` are recorded, and the build is `r` when it is ended. -/
structure Built (q : Routine α m n) (round : Round α n) (L : List Nat) (r : Recording α) : Prop where
  underway : ∃ x : Operand α, x.id = q.input ∧
    Underway q round (.start round.session.recorder.builds x) q.calls.length L r
      (round.session.run (q.computing round))
  output : ∃ node, r.arena.find? (q.outputOf round) = some node

/-- A round of which all calls succeed is built. -/
theorem exists_built (reached : round.session.Reached)
    (idle : round.session.recorder.current = none)
    (succeeds : round.session.Succeeds (q.steps round)) : ∃ L r, q.Built round L r := by
  obtain ⟨⟨begun, computing⟩, ended, -⟩ := Session.succeeds_append.mp succeeds
  -- The build begins with the input,
  simp only [Session.verdict] at begun
  split at begun
  case h_2 => cases begun
  rename_i x named
  have first : Underway q round (.start round.session.recorder.builds x) 0 []
      (.start round.session.recorder.builds x) (round.session.perform (.begin q.input)) := by
    refine ⟨Session.reached_run reached [.begin q.input], .start, ?_, ?_⟩
    · simp only [Session.perform, named, Recorder.begin, idle]
      rfl
    · simp only [Session.perform, named]
      rfl
  -- goes through all calls,
  obtain ⟨L, r, underway⟩ := first.run List.drop_zero computing
  rw [Nat.zero_add] at underway
  refine ⟨L, r, ⟨x, (Session.operand_ok named).1, underway⟩, ?_⟩
  -- and can be ended, so its output is bound.
  simp only [Session.verdict] at ended
  cases finished : ((round.session.run (q.computing round)).recorder.finish
      (q.outputOf round)).result with
  | error cause =>
      rw [finished] at ended
      cases ended
  | ok answer =>
      obtain ⟨r', node, current, found, -⟩ := Recorder.finish_answer finished
      have live : (round.session.run (q.computing round)).recorder.current = some r :=
        congrArg Recorder.current underway.recorder
      cases live.symm.trans current
      exact ⟨node, found⟩

section Built

variable (built : q.Built round L r)

include built

theorem Built.building : ∃ x : Operand α, x.id = q.input ∧
    Building q (q.tensorOf round) round.session.recorder.previous round.session.recorder.constants
      (.start round.session.recorder.builds x) q.calls.length L r := by
  obtain ⟨x, input, underway⟩ := built.underway
  exact ⟨x, input, underway.building⟩

theorem Built.live : (round.session.run (q.computing round)).recorder =
    { round.session.recorder with current := some r } := by
  obtain ⟨x, -, underway⟩ := built.underway
  exact underway.recorder

/-- After the round no build is going on, and what is left is the summary of the build. -/
theorem Built.after_recorder : (q.after round).session.recorder =
    { round.session.recorder with
      builds := round.session.recorder.builds + 1
      current := none
      previous := some r.summarize } := by
  obtain ⟨node, found⟩ := built.output
  simp only [after, steps, Session.run_concat, Session.perform, Recorder.finish, built.live, found]
  rfl

theorem Built.after_length : (q.after round).session.tensors.length =
    round.session.tensors.length + q.calls.length := by
  obtain ⟨x, -, underway⟩ := built.underway
  rw [← underway.length, after, steps, Session.run_concat]
  rfl

theorem Built.ascending : L.Pairwise (· < ·) ∧ ∀ j ∈ L, j < q.calls.length := by
  obtain ⟨x, -, building⟩ := built.building
  exact building.ascending

theorem Built.summary : r.summarize.arities = L.map q.arity ∧
    r.summarize.results = L.zipIdx.map fun p => (q.tensorOf round (.answer p.1), p.2) := by
  obtain ⟨x, -, building⟩ := built.building
  exact building.summary (Arena.Paired.empty.add rfl _) ⟨rfl, rfl⟩

/-- From the second round on, a round ends with a procedure. -/
theorem Built.compiles {before : Predecessor}
    (previous : round.session.recorder.previous = some before) :
    ∃ node p, r.arena.find? (q.outputOf round) = some node ∧ q.Compiles round p ∧
      p = Recorder.compile round.session.recorder.name round.session.recorder.constants before r
        (q.outputOf round) node := by
  obtain ⟨node, found⟩ := built.output
  refine ⟨node, _, found, ?_, rfl⟩
  simp only [Compiles, Recorder.finish, built.live, found, previous]
  rfl

end Built

/-! ### What a round sees of the round before -/

/-- The expression of the round before that a name stands for the result of, if that round recorded
the calls `L`. -/
def carried (q : Routine α m n) (L : List Nat) (x : Source m n) : Option ExpressionId :=
  match q.place x with
  | .last i => L.zipIdx.lookup i
  | _ => none

omit [Zero α] [Add α] [Sub α] [Mul α] [Div α] [BEq α] in
theorem carried_mono {L L' : List Nat} (sub : L ⊆ L') {x : Source m n}
    (h : (q.carried L x).isSome = true) : (q.carried L' x).isSome = true := by
  unfold carried at h ⊢
  split at h
  · exact lookup_zipIdx_isSome.mpr (sub (lookup_zipIdx_isSome.mp h))
  · cases h

/-- For all that the round knows, the round before it recorded the calls `L`. -/
def Sees (q : Routine α m n) (round : Round α n) (L : List Nat) : Prop :=
  ∀ x, sourceOf round.session.recorder.previous (q.tensorOf round x) = q.carried L x

/-- The next round sees which calls were recorded. -/
theorem Built.sees (built : q.Built round L r) {first : Round α n} (ready : q.Ready first)
    (later : q.Later first (q.after round) round.session.tensors.length) :
    q.Sees (q.after round) L := by
  intro x
  have since := later.since
  have upTo := later.upTo
  have within := ready.within x
  rw [built.after_recorder, later.tensorOf_eq]
  simp only [sourceOf, Option.bind_some, built.summary.2, tensorOf, lookup_shifted, carried]
  cases place : q.place x with
  | before z =>
      rw [place] at within
      have lt : z < round.session.tensors.length := lt_of_lt_of_le within since
      simp [Place.tensor, Nat.not_le_of_lt lt]
  | last i => simp [Place.tensor]
  | this i =>
      -- The answers of this round are none of the round before.
      have late : (q.after round).session.tensors.length + i - round.session.tensors.length ∉ L := by
        intro mem
        have lt := built.ascending.2 _ mem
        omega
      rw [← lookup_zipIdx_isSome (k := 0), Option.not_isSome_iff_eq_none] at late
      simp [Place.tensor, late]

omit [Zero α] [Add α] [Sub α] [Mul α] [Div α] [BEq α] in
theorem carried_nil (x : Source m n) : q.carried [] x = none := by
  unfold carried
  split <;> rfl

/-- The first round sees nothing of a round before. -/
theorem Ready.sees {first : Round α n} (ready : q.Ready first) (reached : first.session.Reached) :
    q.Sees first [] := by
  intro x
  rw [carried_nil]
  cases x with
  | input | fixed | state => exact ready.fresh _ trivial
  | answer i =>
      rw [← Option.not_isSome_iff_eq_none]
      intro earlier
      have lt := Session.reached_sourceOf reached earlier
      exact absurd lt (Nat.not_lt_of_le (Nat.le_add_right _ i))

/-- The calls that are recorded are those that are listed. -/
theorem Built.records_iff (built : q.Built round L r) (reached : round.session.Reached)
    (i : Fin q.calls.length) : q.Records round i ↔ i.val ∈ L := by
  have live : (round.session.run (q.computing round)).recorder.current = some r := by
    rw [built.live]
  obtain ⟨last, placed⟩ := Session.reached_placed (Session.reached_run reached _) live
  have given : q.Records round i ↔ (r.results.lookup (q.tensorOf round (.answer i))).isSome := by
    rw [Option.isSome_iff_exists]
    constructor
    · rintro ⟨r', current, e, he, there⟩
      cases live.symm.trans current
      obtain ⟨j, hj⟩ := List.getElem?_of_mem he
      exact ⟨j, (placed.gives _ j).mpr ⟨e, hj, there⟩⟩
    · rintro ⟨j, found⟩
      obtain ⟨e, he, there⟩ := (placed.gives _ j).mp found
      exact ⟨r, live, e, List.mem_of_getElem? he, there⟩
  rw [given]
  have results := built.summary.2
  simp only [Recording.summarize] at results
  rw [results, ← lookup_zipIdx_isSome (k := 0)]
  simp only [tensorOf, lookup_shifted]
  simp

end Routine

end GradientReplay
