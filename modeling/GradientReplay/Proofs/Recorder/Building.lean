import GradientReplay.Proofs.Recorder.Routine

/-!
What the calls of a routine make of a build.

Each call is recorded if some argument is attached, and passed if none is (`Building`). Which
arguments are attached depends on the names that the build before gave results to, so two rounds can
be compared call by call. If a round sees less of the round before than another one does, it records
less (`Building.subset`); if both see the same, they record the same, and their builds match
(`Building.same_calls`).
-/

namespace GradientReplay

variable {α : Type} {m n : Nat}

/-! ### Recordings -/

namespace Recording

/-- The test for attachment while this build is going on. -/
def Attached (previous : Option Predecessor) (constants : List TensorId) (r : Recording α)
    (x : TensorId) : Prop :=
  r.arena.binds x = true ∨ x ∈ constants ∨ (sourceOf previous x).isSome = true

variable {r r' : Recording α} {previous : Option Predecessor} {u : Term α (Operand α)}
  {y : Operand α}

theorem attached_iff {recorder : Recorder α} (current : recorder.current = some r) (x : TensorId) :
    recorder.attached x = true ↔ r.Attached recorder.previous recorder.constants x := by
  simp only [Recorder.attached, current, Attached, Bool.or_eq_true, List.contains_iff_mem,
    produced_iff_sourceOf, or_assoc]

/-- A build begins with its input bound. -/
theorem binds_start (build : Nat) (input : Operand α) (z : TensorId) :
    (start build input).arena.binds z = true ↔ z = input.id := by
  have find : (start build input).arena.find? z = if z = input.id then some 0 else none := by
    simp only [start, Arena.define, Arena.find?, Arena.empty, List.lookup_nil, List.nil_append,
      List.length_nil, List.lookup_cons]
    split <;> simp_all
  rw [Arena.binds, find]
  split <;> simp_all

/-- Recording a term binds its arguments and its result, and nothing else. -/
theorem binds_record_iff (paired : r.arena.Paired) {id : ExpressionId}
    (h : r.record previous u y = .ok (r', id)) (z : TensorId) :
    r'.arena.binds z = true ↔
      r.arena.binds z = true ∨ z ∈ u.arguments.map (·.id) ∨ z = y.id := by
  obtain ⟨-, s, adds, rfl⟩ := record_ok paired h
  simp only [Arena.binds, Option.isSome_iff_exists]
  constructor
  · rintro ⟨k, there⟩
    rw [adding, Arena.find?_add] at there
    rcases Option.or_eq_some_iff.mp there with there | ⟨-, there⟩
    · rcases adds.binds.grown.new z k there with old | new
      · exact .inl ⟨k, old⟩
      · have lt := adds.binds.paired.lt there
        obtain ⟨x, hx, found, -⟩ := adds.binds.fresh k _ new (List.getElem?_eq_getElem lt)
        have same := adds.binds.paired.distinct there found
        exact .inr (.inl (same ▸ List.mem_map_of_mem hx))
    · split at there
      · rename_i same
        exact .inr (.inr same)
      · cases there
  · rintro (⟨k, there⟩ | argument | rfl)
    · exact ⟨k, adds.grown.keep z k there⟩
    · obtain ⟨x, hx, rfl⟩ := List.mem_map.mp argument
      exact ⟨_, (extends_adding r s u y).keep _ _ (adds.found x hx)⟩
    · exact ⟨_, adds.bound⟩

end Recording

/-! ### One round -/

/-- How many arguments a call has. -/
def Routine.arity (q : Routine α m n) (i : Nat) : Nat :=
  (q.calls[i]?.map (·.arguments.length)).getD 0

/-- What the first calls of a routine make of a build: after `i` calls, of which `L` were recorded,
the build that began as `first` is `r`. -/
inductive Building (q : Routine α m n) (σ : Source m n → TensorId) (previous : Option Predecessor)
    (constants : List TensorId) (first : Recording α) : Nat → List Nat → Recording α → Prop where
  | start : Building q σ previous constants first 0 [] first
  | record {i : Nat} {L : List Nat} {r r' : Recording α} {t : Term α (Source m n)}
      {u : Term α (Operand α)} {y : Operand α} {id : ExpressionId}
      (before : Building q σ previous constants first i L r) (call : q.calls[i]? = some t)
      (named : u.map (·.id) = t.map σ) (answer : y.id = σ (.answer i))
      (attached : ∃ x ∈ t.arguments, r.Attached previous constants (σ x))
      (recorded : r.record previous u y = .ok (r', id)) :
      Building q σ previous constants first (i + 1) (L ++ [i]) r'
  | pass {i : Nat} {L : List Nat} {r : Recording α} {t : Term α (Source m n)}
      (before : Building q σ previous constants first i L r) (call : q.calls[i]? = some t)
      (detached : ¬ ∃ x ∈ t.arguments, r.Attached previous constants (σ x)) :
      Building q σ previous constants first (i + 1) L r

namespace Building

variable {q : Routine α m n} {σ σ' : Source m n → TensorId} {previous previous' : Option Predecessor}
  {constants constants' : List TensorId} {first first' r r' : Recording α} {i : Nat}
  {L L' : List Nat}

/-- The arguments of a term of which the names are known. -/
theorem map_id_arguments {t : Term α (Source m n)} {u : Term α (Operand α)}
    (named : u.map (·.id) = t.map σ) : u.arguments.map (·.id) = t.arguments.map σ := by
  rw [← Term.arguments_map, named, Term.arguments_map]

theorem paired (h : Building q σ previous constants first i L r) (start : first.arena.Paired) :
    r.arena.Paired := by
  induction h with
  | start => exact start
  | record before call named answer attached recorded ih =>
      obtain ⟨-, s, adds, rfl⟩ := Recording.record_ok ih recorded
      exact adds.paired
  | pass before call detached ih => exact ih

/-- The calls that were recorded are listed in order. -/
theorem ascending (h : Building q σ previous constants first i L r) :
    L.Pairwise (· < ·) ∧ ∀ j ∈ L, j < i := by
  induction h with
  | start => exact ⟨.nil, fun j hj => by cases hj⟩
  | record before call named answer attached recorded ih =>
      obtain ⟨ascending, lt⟩ := ih
      refine ⟨List.pairwise_append.mpr ⟨ascending, List.pairwise_singleton _ _, ?_⟩, ?_⟩
      · intro j hj k hk
        cases List.mem_singleton.mp hk
        exact lt j hj
      · intro j hj
        rcases List.mem_append.mp hj with hj | hj
        · exact Nat.lt_succ_of_lt (lt j hj)
        · cases List.mem_singleton.mp hj
          exact Nat.lt_succ_self _
  | pass before call detached ih => exact ⟨ih.1, fun j hj => Nat.lt_succ_of_lt (ih.2 j hj)⟩

/-- What a build leaves for the one after it depends on the calls that were recorded. -/
theorem summary (h : Building q σ previous constants first i L r) (start : first.arena.Paired)
    (blank : first.expressions = [] ∧ first.results = []) :
    r.expressions.map (·.term.arguments.length) = L.map q.arity ∧
      r.results = L.zipIdx.map fun p => (σ (.answer p.1), p.2) := by
  induction h with
  | start => simp [blank]
  | @record i L r r' t u y id before call named answer attached recorded ih =>
      obtain ⟨arities, results⟩ := ih
      obtain ⟨-, s, adds, rfl⟩ := Recording.record_ok (before.paired start) recorded
      have length : r.expressions.length = L.length := by
        have lengths := congrArg List.length arities
        simpa using lengths
      have arity : u.arguments.length = q.arity i := by
        have lengths := congrArg List.length (map_id_arguments named)
        simpa [Routine.arity, call] using lengths
      constructor
      · simp [Recording.adding, arities, arity]
      · simp [Recording.adding, results, answer, length, List.zipIdx_append]
  | pass before call detached ih => exact ih

/-- Recording a call binds its arguments and its answer, whatever else they are called. -/
theorem binds_record {t : Term α (Source m n)} {u : Term α (Operand α)} {y : Operand α}
    {id : ExpressionId} (paired : r.arena.Paired) (named : u.map (·.id) = t.map σ)
    (answer : y.id = σ (.answer i)) (recorded : r.record previous u y = .ok (r', id))
    (x : Source m n) :
    r'.arena.binds (σ x) = true ↔ r.arena.binds (σ x) = true ∨
      (∃ z ∈ t.arguments, σ z = σ x) ∨ σ (.answer i) = σ x := by
  rw [Recording.binds_record_iff paired recorded, map_id_arguments named, answer, List.mem_map,
    eq_comm (a := σ x)]

/-! ### Two rounds -/

/-- If what is attached in one round is attached in another one, whatever is recorded in the one is
recorded in the other. -/
theorem subset (h : Building q σ previous constants first i L r)
    (h' : Building q σ' previous' constants' first' i L' r') (start : first.arena.Paired)
    (start' : first'.arena.Paired) (same : ∀ x y, σ x = σ y → σ' x = σ' y)
    (begun : ∀ x, first.arena.binds (σ x) = true → first'.arena.binds (σ' x) = true)
    (registered : ∀ x, σ x ∈ constants → σ' x ∈ constants')
    (sources : ∀ x, (sourceOf previous (σ x)).isSome = true →
      (sourceOf previous' (σ' x)).isSome = true) :
    L ⊆ L' ∧ ∀ x, r.arena.binds (σ x) = true → r'.arena.binds (σ' x) = true := by
  have attach {r r' : Recording α}
      (bound : ∀ x, r.arena.binds (σ x) = true → r'.arena.binds (σ' x) = true)
      {t : Term α (Source m n)} (h : ∃ x ∈ t.arguments, r.Attached previous constants (σ x)) :
      ∃ x ∈ t.arguments, r'.Attached previous' constants' (σ' x) := by
    obtain ⟨x, hx, attached⟩ := h
    refine ⟨x, hx, ?_⟩
    rcases attached with there | constant | carried
    · exact .inl (bound x there)
    · exact .inr (.inl (registered x constant))
    · exact .inr (.inr (sources x carried))
  -- Both rounds make the same calls, so the last step of the other one is for the same call.
  induction h generalizing L' r' with
  | start =>
      cases h'
      exact ⟨fun _ h => h, begun⟩
  | record before call named answer attached recorded ih =>
      cases h' with
      | record before' call' named' answer' attached' recorded' =>
          obtain ⟨sub, bound⟩ := ih before'
          cases call.symm.trans call'
          refine ⟨List.append_subset.mpr ⟨fun j hj => ?_, List.subset_append_right _ _⟩,
            fun x there => ?_⟩
          · exact List.mem_append_left _ (sub hj)
          · rw [binds_record (before'.paired start') named' answer' recorded']
            rw [binds_record (before.paired start) named answer recorded] at there
            rcases there with there | ⟨z, hz, argument⟩ | result
            · exact .inl (bound x there)
            · exact .inr (.inl ⟨z, hz, same z x argument⟩)
            · exact .inr (.inr (same _ x result))
      | pass before' call' detached' =>
          obtain ⟨-, bound⟩ := ih before'
          cases call.symm.trans call'
          exact absurd (attach bound attached) detached'
  | pass before call detached ih =>
      cases h' with
      | record before' call' named' answer' attached' recorded' =>
          obtain ⟨sub, bound⟩ := ih before'
          refine ⟨fun j hj => List.mem_append_left _ (sub hj), fun x there => ?_⟩
          rw [binds_record (before'.paired start') named' answer' recorded']
          exact .inl (bound x there)
      | pass before' call' detached' => exact ih before'

/-- If the names agree in all that is attached, two rounds record the same calls, and their builds
match. -/
theorem same_calls (h : Building q σ previous constants first i L r)
    (h' : Building q σ' previous' constants' first' i L' r') (start : first.Matches σ σ' first')
    (same : SameTensors σ σ') (sources : SameSources previous previous' σ σ')
    (registered : ∀ x, σ' x ∈ constants' ↔ σ x ∈ constants) :
    L' = L ∧ r.Matches σ σ' r' := by
  have attach {r r' : Recording α} (matching : r.Matches σ σ' r') (t : Term α (Source m n)) :
      (∃ x ∈ t.arguments, r'.Attached previous' constants' (σ' x)) ↔
        ∃ x ∈ t.arguments, r.Attached previous constants (σ x) := by
    simp only [Recording.Attached, Arena.binds, matching.arena.found, registered, sources _]
  induction h generalizing L' r' with
  | start =>
      cases h'
      exact ⟨rfl, start⟩
  | record before call named answer attached recorded ih =>
      cases h' with
      | record before' call' named' answer' attached' recorded' =>
          obtain ⟨rfl, matching⟩ := ih before'
          cases call.symm.trans call'
          exact ⟨rfl, matching.record same sources named named' answer answer' recorded recorded'⟩
      | pass before' call' detached' =>
          obtain ⟨-, matching⟩ := ih before'
          cases call.symm.trans call'
          exact absurd ((attach matching _).mpr attached) detached'
  | pass before call detached ih =>
      cases h' with
      | record before' call' named' answer' attached' recorded' =>
          obtain ⟨-, matching⟩ := ih before'
          cases call.symm.trans call'
          exact absurd ((attach matching _).mp attached') detached
      | pass before' call' detached' => exact ih before'

end Building

end GradientReplay
