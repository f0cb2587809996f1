import GradientReplay.Proofs.Recorder.Build
import GradientReplay.Proofs.Recorder.History

/-!
What a build that was recorded by computing knows of the tensors.

As long as no tensor is changed in place, each node keeps the contents of its tensor, the contents
solve all equations of the build, and each result was the answer of a computation
(`Session.assisted_faithful`).
-/

namespace GradientReplay

variable {α : Type}

/-- A call that changes no tensor in place. -/
def Call.Steady : Call α → Prop
  | .overwrite _ _ => False
  | _ => True

instance (c : Call α) : Decidable c.Steady :=
  match c with
  | .overwrite _ _ => isFalse id
  | .hold _ | .register _ | .begin _ | .record _ _ | .compute _ | .finish _ => isTrue trivial

variable [Zero α] [Add α] [Sub α] [Mul α] [Div α] [BEq α] {held held' : List (Tensor α)}

/-! ### Contents of nodes -/

/-- The nodes have the contents that their tensors still have. -/
def Arena.Current (held : List (Tensor α)) (arena : Arena α) : Prop :=
  ∀ x k, arena.find? x = some k → held[x]? = some (arena.nodes.referenceAt k)

omit [Add α] [Sub α] [Mul α] [Div α] [BEq α] in
theorem Arena.Current.empty : (Arena.empty : Arena α).Current held := fun x k found => by cases found

omit [Add α] [Sub α] [Mul α] [Div α] [BEq α] in
theorem Arena.Current.add {arena : Arena α} (current : arena.Current held) (paired : arena.Paired)
    {x : Operand α} (hold : held[x.id]? = some x.tensor) {n : Node α}
    (contents : n.reference = x.tensor) : (arena.add x.id n).Current held := by
  intro y k found
  rw [find?_add] at found
  rcases Option.or_eq_some_iff.mp found with found | ⟨-, found⟩
  · rw [current y k found]
    exact congrArg some
      (Nodes.referenceAt_of_grown (extends_add arena x.id n).nodes (paired.lt found)).symm
  · split at found
    · rename_i same
      cases found
      rw [same, hold, ← contents]
      exact congrArg some (Nodes.referenceAt_of_getElem? (getElem?_add_length arena x.id n)).symm
    · cases found

namespace Recording

variable {answered : Operand α → Prop} {previous : Option Predecessor} {r r' s : Recording α}

omit [Zero α] [Add α] [Sub α] [Mul α] [Div α] [BEq α] in
theorem leaf_reference (r : Recording α) (previous : Option Predecessor) (x : Operand α)
    (k : NodeId) : (r.leaf previous x k).reference = x.tensor := by
  simp only [leaf]
  split <;> rfl

omit [Add α] [Sub α] [Mul α] [Div α] [BEq α] in
/-- The nodes that are made for arguments have their contents. -/
theorem Binds.current {xs : List (Operand α)} (binds : Binds previous xs r s)
    (current : r.arena.Current held) (hold : ∀ x ∈ xs, held[x.id]? = some x.tensor) :
    s.arena.Current held := by
  intro x k found
  rcases Nat.lt_or_ge k r.arena.nodes.length with old | new
  · rw [current x k (binds.grown.find?_of_lt found old)]
    exact congrArg some (Nodes.referenceAt_of_grown binds.grown.nodes old).symm
  · have hn := List.getElem?_eq_getElem (binds.paired.lt found)
    obtain ⟨y, hy, here, eq⟩ := binds.fresh k _ new hn
    have same : x = y.id := binds.paired.distinct found here
    rw [same, hold y hy, Nodes.referenceAt_of_getElem? hn, eq, leaf_reference]

/-! ### One recording -/

/-- The nodes have the contents that the tensors still have, these solve all equations, and each
result was answered. -/
structure Faithful (held : List (Tensor α)) (answered : Operand α → Prop) (r : Recording α) :
    Prop where
  paired : r.arena.Paired
  current : r.arena.Current held
  solved : ∀ e ∈ r.expressions, (e.term.map r.arena.nodes.referenceAt).eval =
    .ok (r.arena.nodes.referenceAt e.result)
  results : ∀ e ∈ r.expressions, ∃ y, answered y ∧ r.arena.find? y.id = some e.result ∧
    r.arena.nodes.referenceAt e.result = y.tensor

theorem Faithful.mono (faithful : r.Faithful held answered)
    (keep : ∀ (x : TensorId) (t : Tensor α), held[x]? = some t → held'[x]? = some t) :
    r.Faithful held' answered :=
  { faithful with current := fun x k found => keep x _ (faithful.current x k found) }

theorem Faithful.start (build : Nat) {input : Operand α}
    (hold : held[input.id]? = some input.tensor) :
    (Recording.start build input).Faithful held answered where
  paired := Arena.Paired.empty.add rfl _
  current := Arena.Current.empty.add .empty hold rfl
  solved := fun e he => by cases he
  results := fun e he => by cases he

/-- Recording the value of a term keeps a recording faithful. -/
theorem Faithful.record (faithful : r.Faithful held answered) (valid : r.Valid held)
    {term : Term α (Operand α)} {result : Operand α} {id : ExpressionId}
    (hold : ∀ x ∈ term.arguments, held[x.id]? = some x.tensor)
    (holdResult : held[result.id]? = some result.tensor)
    (computed : (term.map (·.tensor)).eval = .ok result.tensor) (answer : answered result)
    (h : r.record previous term result = .ok (r', id)) : r'.Faithful held answered := by
  obtain ⟨-, s, adds, rfl⟩ := record_ok faithful.paired h
  let r' := r.adding s term result
  have current : r'.arena.Current held :=
    (adds.binds.current faithful.current hold).add adds.binds.paired holdResult rfl
  -- What was there keeps its contents, and the result has those of its tensor.
  have keep {k : NodeId} (lt : k < r.arena.nodes.length) :
      r'.arena.nodes.referenceAt k = r.arena.nodes.referenceAt k :=
    Nodes.referenceAt_of_grown adds.grown.nodes lt
  have here : r'.arena.nodes.referenceAt s.arena.nodes.length = result.tensor :=
    Nodes.referenceAt_of_getElem? (Arena.getElem?_add_length _ _ _)
  refine ⟨adds.paired, current, fun e he => ?_, fun e he => ?_⟩
  · rcases List.mem_append.mp he with he | he
    · have lt := valid.result_lt he
      have arguments : e.term.map r'.arena.nodes.referenceAt =
          e.term.map r.arena.nodes.referenceAt :=
        Term.map_congr fun a ha => keep (lt_trans (valid.arguments e he a ha) lt)
      rw [arguments, keep lt]
      exact faithful.solved e he
    · cases List.mem_singleton.mp he
      have arguments : (term.map s.nodeOf).map r'.arena.nodes.referenceAt =
          term.map (·.tensor) := by
        rw [Term.map_map]
        refine Term.map_congr fun x hx => ?_
        have bound := (extends_adding r s term result).keep _ _ (adds.found x hx)
        have contents := current x.id _ bound
        exact Option.some.inj (contents.symm.trans (hold x hx))
      rw [arguments, here]
      exact computed
  · rcases List.mem_append.mp he with he | he
    · obtain ⟨y, answer, there, contents⟩ := faithful.results e he
      exact ⟨y, answer, adds.grown.keep _ _ there, (keep (valid.result_lt he)).trans contents⟩
    · cases List.mem_singleton.mp he
      exact ⟨result, answer, adds.bound, here⟩

end Recording

/-! ### A history -/

namespace Session

/-- The call is a computation with this answer. -/
def Answers (s : Session α) (c : Call α) (y : Operand α) : Prop :=
  match c with
  | .compute term => ∃ u, term.traverse s.operand = .ok u ∧
      (s.recorder.compute u s.tensors.length).result = .ok y
  | _ => False

/-- Some call is a computation with this answer. -/
def Answered : Session α → List (Call α) → Operand α → Prop
  | _, [], _ => False
  | s, c :: calls, y => s.Answers c y ∨ (s.perform c).Answered calls y

/-- The build that is going on is faithful. -/
def Faithful (answered : Operand α → Prop) (s : Session α) : Prop :=
  ∀ r, s.recorder.current = some r → r.Faithful s.tensors answered

variable {s : Session α} {answered : Operand α → Prop}

omit [Zero α] [Add α] [Sub α] [Mul α] [Div α] [BEq α] in
theorem getElem?_concat_of_getElem? (held more : List (Tensor α)) (x : TensorId) (t : Tensor α)
    (h : held[x]? = some t) : (held ++ more)[x]? = some t :=
  (List.getElem?_append_left (List.getElem?_eq_some_iff.mp h).1).trans h

/-- A computation keeps the build faithful. -/
theorem Faithful.compute (faithful : s.Faithful answered) (valid : s.Valid)
    (term : Term α TensorId) (answer : ∀ y, s.Answers (.compute term) y → answered y) :
    (s.perform (.compute term)).Faithful answered := by
  cases traversed : term.traverse s.operand with
  | error e =>
      simp only [perform, traversed]
      exact faithful
  | ok u =>
      have hold := traverse_operand_ok traversed
      simp only [perform, traversed]
      rcases s.recorder.compute_cases u s.tensors.length with same | ⟨value, computed, eq, result⟩
      · unfold keep
        split
        · simp only [same]
          intro r current
          exact (faithful r current).mono (getElem?_concat_of_getElem? _ _)
        · simp only [same]
          exact faithful
      · -- The value is recorded as a tensor that the caller holds.
        let y : Operand α := ⟨s.tensors.length, value⟩
        have answer : answered y := answer y ⟨u, traversed, result⟩
        have longer := getElem?_concat_of_getElem? s.tensors [value]
        simp only [keep, result, eq]
        rcases s.recorder.record_cases u y with ⟨e, failed⟩ | ⟨r, r', id, current, recorded, made⟩
        · rw [failed]
          intro r current
          exact (faithful r current).mono longer
        · rw [made]
          rintro _ ⟨⟩
          have hold' : ∀ x ∈ u.arguments, (s.tensors ++ [value])[x.id]? = some x.tensor :=
            fun x hx => longer _ _ (hold x hx)
          have valid' : r.Valid (s.tensors ++ [value]) := (valid r current).mono (keep_append _)
          exact ((faithful r current).mono longer).record valid' hold'
            List.getElem?_concat_length computed answer recorded

/-- A call that gives no result by hand and changes no tensor in place keeps the build faithful. -/
theorem Faithful.perform (faithful : s.Faithful answered) (valid : s.Valid) {c : Call α}
    (assisted : c.Assisted) (steady : c.Steady) (answer : ∀ y, s.Answers c y → answered y) :
    (s.perform c).Faithful answered := by
  cases c with
  | hold t => exact fun r current => (faithful r current).mono (getElem?_concat_of_getElem? _ _)
  | overwrite id t => cases steady
  | register ids => exact faithful
  | begin input =>
      simp only [Session.perform]
      split
      · rename_i x named
        intro r current
        unfold Recorder.begin at current
        split at current
        · exact faithful r current
        · cases current
          exact .start _ (operand_ok named).2
      · exact faithful
  | record term result => cases assisted
  | compute term => exact faithful.compute valid term answer
  | finish output =>
      intro r current
      simp only [Session.perform, Recorder.finish] at current
      split at current
      · exact faithful r current
      · split at current <;> cases current

theorem Faithful.run (faithful : s.Faithful answered) (valid : s.Valid) {calls : List (Call α)}
    (assisted : ∀ c ∈ calls, c.Assisted) (steady : ∀ c ∈ calls, c.Steady)
    (answer : ∀ y, s.Answered calls y → answered y) : (s.run calls).Faithful answered := by
  induction calls generalizing s with
  | nil => exact faithful
  | cons c calls ih =>
      refine ih ?_ (valid.perform c) (fun d hd => assisted d (List.mem_cons_of_mem c hd))
        (fun d hd => steady d (List.mem_cons_of_mem c hd)) fun y later => answer y (.inr later)
      exact faithful.perform valid (assisted c List.mem_cons_self) (steady c List.mem_cons_self)
        fun y now => answer y (.inl now)

/-- After a history that records by computing and changes no tensor in place, begun while nothing was
going on, the build that is going on is faithful to the tensors and to the answers. -/
theorem assisted_faithful (reached : s.Reached) (idle : s.recorder.isRecording = false)
    {calls : List (Call α)} (assisted : ∀ c ∈ calls, c.Assisted)
    (steady : ∀ c ∈ calls, c.Steady) : (s.run calls).Faithful (s.Answered calls) := by
  refine Faithful.run (fun r current => ?_) (reached_valid reached) assisted steady fun y h => h
  simp [Recorder.isRecording, current] at idle

end Session

end GradientReplay
