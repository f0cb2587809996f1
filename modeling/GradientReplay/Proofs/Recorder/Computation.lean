import GradientReplay.Proofs.Recorder.Links

/-!
What a computation does besides computing.

It answers as the plain operation does, and it is recorded exactly if a build is going on and some
argument is the declared input, a registered constant, a result of the build that was ended last, or
a tensor that some expression of this build uses or gives (`Recording.Attaches`). The answer is a
new tensor, so no recording that is called for is refused (`Session.computes_of_operands`). By
induction along a chain of computations, whatever depends on an input, a constant or an earlier
result is a result of the build (`Session.Derived`, `Session.computations_recorded`).
-/

namespace GradientReplay

variable {α : Type}

/-! ### Attached tensors -/

/-- Some expression uses the tensor or gives it. -/
def Graph.Mentions (g : Graph α) (x : TensorId) : Prop :=
  ∃ e ∈ g.expressions, ∃ k, g.nodeOf x = some k ∧ (k ∈ e.term.arguments ∨ k = e.result)

namespace Recording

/-- What dependence starts from: the declared input, the registered constants, and the results of
the build that was ended last. -/
def Root (last : Option (Recording α)) (constants : List TensorId) (r : Recording α)
    (x : TensorId) : Prop :=
  x = r.input ∨ x ∈ constants ∨ ∃ b ∈ last, ∃ j, b.graph.Gives x j

/-- What is computed from this tensor belongs to the build. -/
def Attaches (last : Option (Recording α)) (constants : List TensorId) (r : Recording α)
    (x : TensorId) : Prop :=
  r.Root last constants x ∨ r.graph.Mentions x

variable {last : Option (Recording α)} {previous : Option Predecessor} {held : List (Tensor α)}
  {r r' : Recording α} {x : TensorId}

/-- Bound are the declared input and what expressions use or give. -/
theorem Placed.binds_iff (placed : r.Placed last) (valid : r.Valid held) (used : r.Used) :
    r.arena.binds x = true ↔ x = r.input ∨ r.graph.Mentions x := by
  unfold Arena.binds
  rw [Option.isSome_iff_exists]
  constructor
  · rintro ⟨k, found⟩
    by_cases zero : k = 0
    · subst zero
      exact .inl (placed.paired.distinct found placed.declared)
    · obtain ⟨n, -, hn, -⟩ := valid.arena.bound x k found
      have kind := placed.kinds x k n found hn zero
      unfold Graph.Kind at kind
      refine .inr ?_
      -- By its origin a node is an argument from its first use on, a result, or carried over.
      split at kind
      · obtain ⟨-, ⟨⟨e, he, uses⟩, -⟩, -⟩ := kind
        exact ⟨e, List.mem_of_getElem? he, k, found, .inl uses⟩
      · obtain ⟨-, ⟨e, he, gives⟩, -⟩ := kind
        exact ⟨e, List.mem_of_getElem? he, k, found, .inr gives.symm⟩
      · rename_i j origin
        have carried : n.origin.isCarried = true := by
          change n.origin = _ at origin
          rw [origin]
          rfl
        obtain ⟨e, he, uses⟩ := used k n hn carried
        exact ⟨e, he, k, found, .inl uses⟩
  · rintro (rfl | ⟨e, -, k, found, -⟩)
    · exact ⟨0, placed.declared⟩
    · exact ⟨k, found⟩

end Recording

/-- The build that was ended last produced what its expressions give. -/
theorem Precedes.produced_iff {last : Option (Recording α)} {previous : Option Predecessor}
    (precedes : Precedes last previous) (x : TensorId) :
    previous.any (·.produced x) = true ↔ ∃ b ∈ last, ∃ j, b.graph.Gives x j := by
  rw [precedes.summary]
  cases last with
  | none => simp
  | some b =>
      have gives := precedes.gives b rfl x
      simp only [Option.map_some, Option.any_some, Predecessor.produced, Recording.summarize,
        Option.isSome_iff_exists, Option.mem_some_iff, exists_eq_left', gives]

/-- The test for attachment tells attached tensors from all others. -/
theorem Recorder.Follows.attached_iff {last : Option (Recording α)} {recorder : Recorder α}
    (follows : recorder.Follows last) {held : List (Tensor α)} {r : Recording α}
    (current : recorder.current = some r) (valid : r.Valid held) (used : r.Used) (x : TensorId) :
    recorder.attached x = true ↔ r.Attaches last recorder.constants x := by
  have bound := (follows.placed r current).binds_iff (x := x) valid used
  have produced := follows.precedes.produced_iff x
  simp only [attached, current, Bool.or_eq_true, List.contains_iff_mem, bound, produced,
    Recording.Attaches, Recording.Root]
  constructor
  · rintro (((declared | mentioned) | constant) | given)
    · exact .inl (.inl declared)
    · exact .inr mentioned
    · exact .inl (.inr (.inl constant))
    · exact .inl (.inr (.inr given))
  · rintro ((declared | constant | given) | mentioned)
    · exact .inl (.inl (.inl declared))
    · exact .inl (.inr constant)
    · exact .inr given
    · exact .inl (.inl (.inr mentioned))

/-! ### Recording the answer -/

namespace Recording

/-- The recording `r'` is `r` with one more expression, the term over the nodes of its arguments,
which gives the node of `y`; what was bound stays bound. -/
structure Appends (r : Recording α) (u : Term α (Operand α)) (y : Operand α) (r' : Recording α) :
    Prop where
  expressions : r'.expressions =
    r.expressions ++ [⟨r.expressions.length, u.map r'.nodeOf, r'.nodeOf y⟩]
  arguments : ∀ x ∈ u.arguments, r'.arena.find? x.id = some (r'.nodeOf x)
  result : r'.arena.find? y.id = some (r'.nodeOf y)
  kept : ∀ x k, r.arena.find? x = some k → r'.arena.find? x = some k

variable {previous : Option Predecessor} {r r' : Recording α} {u : Term α (Operand α)}
  {y : Operand α}

/-- The new expression is one of the build, and gives `y`. -/
theorem Appends.gives (appends : r.Appends u y r') :
    ∃ e ∈ r'.expressions, r'.arena.find? y.id = some e.result := by
  refine ⟨⟨r.expressions.length, u.map r'.nodeOf, r'.nodeOf y⟩, ?_, appends.result⟩
  rw [appends.expressions]
  exact List.mem_append_right _ List.mem_cons_self

/-- A recording that succeeds appends one expression. -/
theorem appends_of_record (paired : r.arena.Paired) {id : ExpressionId}
    (h : r.record previous u y = .ok (r', id)) : r.Appends u y r' := by
  obtain ⟨-, s, adds, rfl⟩ := record_ok paired h
  have found (x : Operand α) (hx : x ∈ u.arguments) :
      (r.adding s u y).arena.find? x.id = some (s.nodeOf x) :=
    (extends_adding r s u y).keep _ _ (adds.found x hx)
  have result := nodeOf_eq adds.bound
  constructor
  · have arguments : u.map (r.adding s u y).nodeOf = u.map s.nodeOf :=
      Term.map_congr fun x hx => nodeOf_eq (found x hx)
    rw [arguments, result]
    rfl
  · intro x hx
    rw [nodeOf_eq (found x hx)]
    exact found x hx
  · rw [result]
    exact adds.bound
  · exact adds.grown.keep

/-- What is new to the build can be recorded as a result. -/
theorem exists_record (previous : Option Predecessor) (fresh : ∀ x ∈ u.arguments, x.id ≠ y.id)
    (unbound : r.arena.find? y.id = none) :
    ∃ r' id, r.record previous u y = .ok (r', id) := by
  have apart : y.id ∉ u.arguments.map (·.id) := by
    intro mem
    obtain ⟨x, hx, same⟩ := List.mem_map.mp mem
    exact fresh x hx same
  have checked : r.checkResult y.id (u.arguments.map (·.id)) = .ok () := by
    simp [checkResult, apart, Arena.binds, unbound]
  exact ⟨_, _, by rw [record, checked]; rfl⟩

end Recording

namespace Recorder

/-- Something is attached only while a build is going on. -/
theorem current_of_attached {recorder : Recorder α} {x : TensorId}
    (h : recorder.attached x = true) : ∃ r, recorder.current = some r := by
  unfold attached at h
  split at h
  · cases h
  · exact ⟨_, ‹_›⟩

variable [Zero α] [Add α] [Sub α] [Mul α] [Div α] [BEq α] {recorder : Recorder α}
  {u : Term α (Operand α)} {fresh : TensorId} {value : Tensor α}

theorem compute_of_error (recorder : Recorder α) (fresh : TensorId) {cause : TensorError}
    (failed : (u.map (·.tensor)).eval = .error cause) :
    recorder.compute u fresh = ⟨recorder, .error (.tensor cause)⟩ := by
  simp only [compute, failed]

theorem compute_of_detached (fresh : TensorId)
    (computed : (u.map (·.tensor)).eval = .ok value)
    (detached : ¬ ∃ x ∈ u.arguments, recorder.attached x.id = true) :
    recorder.compute u fresh = .done recorder ⟨fresh, value⟩ := by
  rw [← List.any_eq_true] at detached
  simp only [compute, computed, detached]
  rfl

theorem compute_of_recorded (computed : (u.map (·.tensor)).eval = .ok value)
    (attached : ∃ x ∈ u.arguments, recorder.attached x.id = true) {r r' : Recording α}
    (current : recorder.current = some r) {id : ExpressionId}
    (recorded : r.record recorder.previous u ⟨fresh, value⟩ = .ok (r', id)) :
    recorder.compute u fresh =
      .done { recorder with current := some r' } ⟨fresh, value⟩ := by
  rw [← List.any_eq_true] at attached
  simp only [compute, computed, attached, if_true, record, current, recorded]
  rfl

end Recorder

namespace Session

variable [Zero α] [Add α] [Sub α] [Mul α] [Div α] [BEq α] {last : Option (Recording α)}
  {s : Session α}

/-- What the computation of a term over tensors that the caller holds does, in a session where
`last` is the build that was ended last. -/
structure Computes (last : Option (Recording α)) (s : Session α) (u : Term α (Operand α)) :
    Prop where
  /-- It answers as the plain operation does: with its value as a new tensor, or with its error. -/
  answer : (s.recorder.compute u s.tensors.length).result =
    match (u.map (·.tensor)).eval with
    | .ok value => .ok ⟨s.tensors.length, value⟩
    | .error cause => .error (.tensor cause)
  failed : ∀ cause, (u.map (·.tensor)).eval = .error cause →
    (s.recorder.compute u s.tensors.length).state = s.recorder
  /-- If some argument belongs to the build, so does the answer. -/
  recorded : ∀ value, (u.map (·.tensor)).eval = .ok value → ∀ r, s.recorder.current = some r →
    (∃ x ∈ u.arguments, r.Attaches last s.recorder.constants x.id) →
      ∃ r', r.Appends u ⟨s.tensors.length, value⟩ r' ∧
        (s.recorder.compute u s.tensors.length).state =
          { s.recorder with current := some r' }
  /-- If none does, or no build is going on, nothing is recorded. -/
  unrecorded : (∀ r, s.recorder.current = some r →
      ∀ x ∈ u.arguments, ¬ r.Attaches last s.recorder.constants x.id) →
    (s.recorder.compute u s.tensors.length).state = s.recorder

omit [Zero α] [Add α] [Sub α] [Mul α] [Div α] [BEq α] in
/-- A tensor that the caller does not hold yet is not bound. -/
theorem Valid.find?_length (valid : s.Valid) {r : Recording α}
    (current : s.recorder.current = some r) : r.arena.find? s.tensors.length = none := by
  cases found : r.arena.find? s.tensors.length with
  | none => rfl
  | some k =>
      obtain ⟨-, t, -, held, -⟩ := (valid r current).arena.bound _ k found
      exact absurd (List.getElem?_eq_some_iff.mp held).1 (lt_irrefl _)

/-- A value is recorded if some argument is attached, and only answered otherwise. -/
theorem compute_of_value (valid : s.Valid) {u : Term α (Operand α)}
    (hold : ∀ x ∈ u.arguments, s.tensors[x.id]? = some x.tensor) {value : Tensor α}
    (computed : (u.map (·.tensor)).eval = .ok value) :
    (∃ r r' id, s.recorder.current = some r ∧
      (∃ x ∈ u.arguments, s.recorder.attached x.id = true) ∧
      r.record s.recorder.previous u ⟨s.tensors.length, value⟩ = .ok (r', id) ∧
      s.recorder.compute u s.tensors.length =
        .done { s.recorder with current := some r' } ⟨s.tensors.length, value⟩) ∨
    (¬ ∃ x ∈ u.arguments, s.recorder.attached x.id = true) ∧
      s.recorder.compute u s.tensors.length = .done s.recorder ⟨s.tensors.length, value⟩ := by
  by_cases attached : ∃ x ∈ u.arguments, s.recorder.attached x.id = true
  · obtain ⟨r, current⟩ : ∃ r, s.recorder.current = some r := by
      obtain ⟨x, -, hx⟩ := attached
      exact Recorder.current_of_attached hx
    have fresh : ∀ x ∈ u.arguments, x.id ≠ s.tensors.length := fun x hx =>
      ne_of_lt (List.getElem?_eq_some_iff.mp (hold x hx)).1
    obtain ⟨r', id, recorded⟩ := Recording.exists_record (y := ⟨s.tensors.length, value⟩)
      s.recorder.previous fresh (valid.find?_length current)
    exact .inl ⟨r, r', id, current, attached, recorded,
      Recorder.compute_of_recorded computed attached current recorded⟩
  · exact .inr ⟨attached, Recorder.compute_of_detached s.tensors.length computed attached⟩

/-- Computing with tensors that the caller holds is transparent, and recorded where it has to be. -/
theorem computes_of_operands (valid : s.Valid) (follows : s.recorder.Follows last)
    (used : ∀ r, s.recorder.current = some r → r.Used) {u : Term α (Operand α)}
    (hold : ∀ x ∈ u.arguments, s.tensors[x.id]? = some x.tensor) : s.Computes last u := by
  have attached_iff {r : Recording α} (current : s.recorder.current = some r) :=
    follows.attached_iff current (valid r current) (used r current)
  cases computed : (u.map (·.tensor)).eval with
  | error cause =>
      have eq := Recorder.compute_of_error s.recorder s.tensors.length computed
      constructor <;> simp [eq, computed]
  | ok value =>
      rcases compute_of_value valid hold computed with
        ⟨r, r', id, current, ⟨x, hx, attached⟩, recorded, eq⟩ | ⟨detached, eq⟩
      · have appends := Recording.appends_of_record (follows.placed r current).paired recorded
        refine ⟨by simp [eq, computed, Outcome.done], by simp [computed], ?_, ?_⟩
        · intro value' computed' r₀ current₀ _
          cases computed.symm.trans computed'
          cases current.symm.trans current₀
          exact ⟨r', appends, by rw [eq]; rfl⟩
        · intro apart
          exact absurd ((attached_iff current _).mp attached) (apart r current x hx)
      · refine ⟨by simp [eq, computed, Outcome.done], by simp [computed], ?_, ?_⟩
        · rintro value' - r current ⟨x, hx, belongs⟩
          exact absurd ⟨x, hx, (attached_iff current _).mpr belongs⟩ detached
        · intro _
          rw [eq]
          rfl

end Session

/-! ### Chains of computations -/

/-- A call that ends the build that is going on, or tries to. -/
def Call.Finishes : Call α → Prop
  | .finish _ => True
  | _ => False

instance (c : Call α) : Decidable c.Finishes :=
  match c with
  | .finish _ => isTrue trivial
  | .hold _ | .overwrite _ _ | .register _ | .begin _ | .record _ _ | .compute _ => isFalse id

/-- The tensor is a result of the build that is going on. -/
def Recorder.Gives (recorder : Recorder α) (x : TensorId) : Prop :=
  ∃ r, recorder.current = some r ∧ ∃ e ∈ r.expressions, r.arena.find? x = some e.result

instance (recorder : Recorder α) (x : TensorId) : Decidable (recorder.Gives x) :=
  decidable_of_iff
    (∃ r ∈ recorder.current, ∃ e ∈ r.expressions, r.arena.find? x = some e.result)
    Iff.rfl

/-- A raw recording leaves the results of the build. -/
theorem Recorder.Gives.record {recorder : Recorder α} {x : TensorId} (gives : recorder.Gives x)
    (paired : ∀ r, recorder.current = some r → r.arena.Paired) (u : Term α (Operand α))
    (y : Operand α) : (recorder.record u y).state.Gives x := by
  rcases recorder.record_cases u y with ⟨cause, eq⟩ | ⟨r, r', id, current, recorded, eq⟩
  · rw [eq]
    exact gives
  · obtain ⟨r₀, current₀, e, he, found⟩ := gives
    cases current.symm.trans current₀
    have appends := Recording.appends_of_record (paired r current) recorded
    rw [eq]
    refine ⟨r', rfl, e, ?_, appends.kept x _ found⟩
    rw [appends.expressions]
    exact List.mem_append_left _ he

namespace Session

/-- The operands of a term are the tensors that it names. -/
theorem map_id_of_traverse {s : Session α} {term : Term α TensorId} {u : Term α (Operand α)}
    (named : term.traverse s.operand = .ok u) : u.map (·.id) = term := by
  cases term with
  | unary f x =>
      obtain ⟨x', hx, h⟩ := bind_ok_iff.mp named
      cases h
      rw [Term.map, (operand_ok hx).1]
  | binary f x c | arithmetic f x c =>
      obtain ⟨x', hx, h⟩ := bind_ok_iff.mp named
      obtain ⟨c', hc, h⟩ := bind_ok_iff.mp h
      cases h
      rw [Term.map, (operand_ok hx).1, (operand_ok hc).1]

variable [Zero α] [Add α] [Sub α] [Mul α] [Div α] [BEq α] {s : Session α}

/-- The results of a build stay results until it is ended. -/
theorem gives_perform {x : TensorId} (gives : s.recorder.Gives x)
    (paired : ∀ r, s.recorder.current = some r → r.arena.Paired) {c : Call α}
    (within : ¬ c.Finishes) : (s.perform c).recorder.Gives x := by
  cases c with
  | hold t => exact gives
  | overwrite id t =>
      simp only [perform]
      split
      · split <;> exact gives
      · exact gives
  | register ids => exact gives
  | begin input =>
      obtain ⟨r, current, -⟩ := id gives
      simp only [perform]
      split
      · simp only [Recorder.begin, current]
        exact gives
      · exact gives
  | record term result =>
      simp only [perform]
      split
      · exact gives.record paired _ _
      · exact gives
  | compute term =>
      simp only [perform]
      split
      · rw [keep_recorder]
        rename_i u _
        rcases s.recorder.compute_cases u s.tensors.length with same | ⟨value, -, eq, -⟩
        · rw [same]
          exact gives
        · rw [eq]
          exact gives.record paired _ _
      · exact gives
  | finish output => exact absurd trivial within

/-- Computing the term makes the tensor `y`, for which it uses the tensor `x`. -/
def Makes (s : Session α) (term : Term α TensorId) (x y : TensorId) : Prop :=
  x ∈ term.arguments ∧ ∃ u value, term.traverse s.operand = .ok u ∧
    (u.map (·.tensor)).eval = .ok value ∧ y = s.tensors.length

/-- After these calls the tensor has been computed within the build that is going on, through some
chain of computations, from its declared input, a constant that was registered by then, or a result
of the build that was ended last. -/
inductive Derived (name : String) : List (Call α) → TensorId → Prop where
  | root {calls : List (Call α)} {term : Term α TensorId} {r : Recording α} {x y : TensorId}
      (current : ((start name).run calls).recorder.current = some r)
      (root : r.Root ((start name).lastEnded calls) ((start name).run calls).recorder.constants x)
      (makes : ((start name).run calls).Makes term x y) : Derived name (calls ++ [.compute term]) y
  | chain {calls : List (Call α)} {term : Term α TensorId} {x y : TensorId}
      (derived : Derived name calls x) (makes : ((start name).run calls).Makes term x y) :
      Derived name (calls ++ [.compute term]) y
  | later {calls : List (Call α)} {c : Call α} {x : TensorId} (derived : Derived name calls x)
      (within : ¬ c.Finishes) : Derived name (calls ++ [c]) x

theorem run_append (s : Session α) (calls more : List (Call α)) :
    s.run (calls ++ more) = (s.run calls).run more := List.foldl_append

theorem run_concat (s : Session α) (calls : List (Call α)) (c : Call α) :
    s.run (calls ++ [c]) = (s.run calls).perform c := s.run_append calls [c]

/-- After every history, computing with tensors that the caller holds is transparent and recorded
where it has to be. -/
theorem reached_computes (name : String) (calls : List (Call α)) {term : Term α TensorId}
    {u : Term α (Operand α)} (named : term.traverse ((start name).run calls).operand = .ok u) :
    ((start name).run calls).Computes ((start name).lastEnded calls) u := by
  have reached : ((start name).run calls).Reached := ⟨name, calls, rfl⟩
  exact computes_of_operands (reached_valid reached) (reached_follows name calls)
    (fun r current => reached_used reached current) (traverse_operand_ok named)

/-- What is made from a tensor that belongs to the build is a result of the build. -/
theorem gives_of_makes (name : String) (calls : List (Call α)) {r : Recording α}
    (current : ((start name).run calls).recorder.current = some r) {term : Term α TensorId}
    {x y : TensorId} (makes : ((start name).run calls).Makes term x y)
    (belongs : r.Attaches ((start name).lastEnded calls)
      ((start name).run calls).recorder.constants x) :
    (((start name).run calls).perform (.compute term)).recorder.Gives y := by
  obtain ⟨uses, u, value, named, computed, rfl⟩ := makes
  rw [← map_id_of_traverse named, Term.arguments_map] at uses
  obtain ⟨a, ha, rfl⟩ := List.mem_map.mp uses
  obtain ⟨r', appends, eq⟩ := (reached_computes name calls named).recorded value computed r current
    ⟨a, ha, belongs⟩
  simp only [perform, named]
  rw [keep_recorder, eq]
  exact ⟨r', rfl, appends.gives⟩

/-- Whatever depends on the input, a constant or an earlier result is a result of the build. -/
theorem Derived.gives {name : String} {calls : List (Call α)} {x : TensorId}
    (derived : Derived name calls x) : ((start name).run calls).recorder.Gives x := by
  induction derived with
  | root current root makes =>
      rw [run_concat]
      exact gives_of_makes name _ current makes (.inl root)
  | chain _ makes ih =>
      obtain ⟨r, current, e, he, found⟩ := ih
      rw [run_concat]
      exact gives_of_makes name _ current makes (.inr ⟨e, he, _, found, .inr rfl⟩)
  | @later calls c x _ within ih =>
      rw [run_concat]
      refine gives_perform ih (fun r current => ?_) within
      exact ((reached_follows name calls).placed r current).paired

/-- After every history: computing with tensors that the caller holds succeeds exactly if the plain
operation does, answers as it does, and appends one expression exactly if a build is going on and
some argument belongs to it; and whatever was computed from the input, a constant or an earlier
result, through any chain of computations, is a result of the build. -/
theorem computations_recorded (name : String) (calls : List (Call α)) :
    (∀ (term : Term α TensorId) (u : Term α (Operand α)),
      term.traverse ((start name).run calls).operand = .ok u →
        ((start name).run calls).Computes ((start name).lastEnded calls) u) ∧
    ∀ x, Derived name calls x → ((start name).run calls).recorder.Gives x :=
  ⟨fun _ _ named => reached_computes name calls named, fun _ derived => derived.gives⟩

/-- A build with the input `x` and the registered constant `w`: `d = v + v`, where `v` is neither,
`h = w * v` and `y = h + d`. -/
def detachedCalls : List (Call Int) :=
  [.hold (.fill [1] 3), .hold (.fill [1] 2), .hold (.fill [1] 5), .register [1], .begin 0,
    .compute (.arithmetic .add 2 2), .compute (.arithmetic .multiply 1 2),
    .compute (.arithmetic .add 4 3)]

/-- Only `d` is left out; `y`, which depends on the constant through `h`, is a result. -/
theorem detached_computations :
    ∃ (r : Recording Int) (u : Term Int (Operand Int)),
      ((start "detached").run detachedCalls).recorder.current = some r ∧
        r.expressions.map (fun e => (e.term.arguments, e.result)) = [([1, 2], 3), ([3, 4], 5)] ∧
        ((start "detached").run detachedCalls).recorder.Gives 5 ∧
        (Term.arithmetic .dot 5 0).traverse ((start "detached").run detachedCalls).operand = .ok u ∧
        ((start "detached").run detachedCalls).Computes none u := by
  obtain ⟨computes, gives⟩ := computations_recorded "detached" detachedCalls
  have root : Derived "detached"
      (detachedCalls.take 6 ++ [.compute (.arithmetic .multiply 1 2)]) 4 :=
    .root (x := 1) rfl (.inr (.inl (by decide))) ⟨List.mem_cons_self, _, _, rfl, rfl, rfl⟩
  have chain : Derived "detached"
      (detachedCalls.take 7 ++ [.compute (.arithmetic .add 4 3)]) 5 :=
    .chain root ⟨List.mem_cons_self, _, _, rfl, rfl, rfl⟩
  have named : (Term.arithmetic .dot 5 0 : Term Int TensorId).traverse
      ((start "detached").run detachedCalls).operand = .ok _ := rfl
  exact ⟨_, _, rfl, rfl, gives 5 chain, named, computes _ _ named⟩

end Session

end GradientReplay
