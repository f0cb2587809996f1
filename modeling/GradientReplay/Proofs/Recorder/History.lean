import GradientReplay.Proofs.Recorder.Valid

/-!
What the build that is going on satisfies after every history: it is a valid recording over the
tensors that the caller holds (`Session.reached_valid`), and if it was recorded by computing, the
shapes of its nodes follow the operations (`Session.assisted_shaped`).
-/

namespace GradientReplay

/-- The shape of a computed tensor follows from the shapes of the operands. -/
theorem Term.eval_shape {α : Type} [Zero α] [Add α] [Sub α] [Mul α] [Div α] [BEq α]
    {t : Term α (Tensor α)} {v : Tensor α} (h : t.eval = .ok v) :
    v.shape = (t.map (·.shape)).shape := by
  cases t with
  | unary f x =>
      cases h
      rfl
  | binary f x c => exact (Tensor.zipWith_ok h).2.2.1
  | arithmetic operation x y =>
      cases operation with
      | add => exact (Tensor.zipWith_ok h).2.2.1
      | subtract => exact (Tensor.zipWith_ok h).2.2.1
      | multiply => exact (Tensor.zipWith_ok h).2.2.1
      | divide => exact (Tensor.zipWith_ok (Tensor.div_ok h)).2.2.1
      | dot =>
          obtain ⟨m, k, n, hx, hy, hv⟩ := Tensor.matMul_shape h
          simp [Term.map, Term.shape, hx, hy, hv]

/-! ### What a call does to the build -/

namespace Recorder

variable {α : Type}

/-- A raw recording is made on the build that is going on, or fails and changes nothing. -/
theorem record_cases (r : Recorder α) (term : Term α (Operand α)) (result : Operand α) :
    (∃ e, r.record term result = ⟨r, .error e⟩) ∨
      ∃ recording recording' id, r.current = some recording ∧
        recording.record r.previous term result = .ok (recording', id) ∧
        r.record term result = .done { r with current := some recording' } id := by
  unfold record
  split
  · exact .inl ⟨_, rfl⟩
  · rename_i recording current
    split
    · exact .inl ⟨_, rfl⟩
    · rename_i recording' id recorded
      exact .inr ⟨recording, recording', id, current, recorded, rfl⟩

variable [Zero α] [Add α] [Sub α] [Mul α] [Div α] [BEq α]

/-- A computation changes nothing, or records the value it answers with. -/
theorem compute_cases (r : Recorder α) (term : Term α (Operand α)) (fresh : TensorId) :
    (r.compute term fresh).state = r ∨
      ∃ value, (term.map (·.tensor)).eval = .ok value ∧
        (r.compute term fresh).state = (r.record term ⟨fresh, value⟩).state ∧
        (r.compute term fresh).result = .ok ⟨fresh, value⟩ := by
  unfold compute
  split
  · exact .inl rfl
  · rename_i value computed
    by_cases attached : (term.arguments.any fun x => r.attached x.id) = true
    · simp only [attached, if_true]
      rcases r.record_cases term ⟨fresh, value⟩ with ⟨e, eq⟩ | ⟨_, _, id, -, -, eq⟩
      · rw [eq]
        exact .inl rfl
      · refine .inr ⟨value, computed, ?_, ?_⟩ <;> rw [eq] <;> rfl
    · simp only [attached]
      exact .inl rfl

end Recorder

namespace Session

variable {α : Type}

/-- The build that is going on is valid over the tensors that the caller holds. -/
def Valid (s : Session α) : Prop := ∀ r, s.recorder.current = some r → r.Valid s.tensors

/-- The shapes of the build that is going on follow the operations. -/
def Shaped (s : Session α) : Prop := ∀ r, s.recorder.current = some r → r.Shaped

theorem keep_append {held : List (Tensor α)} (more : List (Tensor α)) (x : TensorId) (t : Tensor α)
    (h : held[x]? = some t) : ∃ t', (held ++ more)[x]? = some t' ∧ t'.shape = t.shape :=
  ⟨t, (List.getElem?_append_left (List.getElem?_eq_some_iff.mp h).1).trans h, rfl⟩

theorem keep_set {held : List (Tensor α)} {id : TensorId} {old new : Tensor α}
    (hold : held[id]? = some old) (shape : new.shape = old.shape) (x : TensorId) (t : Tensor α)
    (h : held[x]? = some t) : ∃ t', (held.set id new)[x]? = some t' ∧ t'.shape = t.shape := by
  by_cases same : id = x
  · subst same
    have lt := (List.getElem?_eq_some_iff.mp hold).1
    refine ⟨new, List.getElem?_set_self lt, shape.trans ?_⟩
    exact congrArg Tensor.shape (Option.some.inj (hold.symm.trans h))
  · exact ⟨t, (List.getElem?_set_ne same).trans h, rfl⟩

theorem Valid.mono {s s' : Session α} (valid : s.Valid)
    (current : s'.recorder.current = s.recorder.current)
    (keep : ∀ (x : TensorId) (t : Tensor α), s.tensors[x]? = some t →
      ∃ t', s'.tensors[x]? = some t' ∧ t'.shape = t.shape) : s'.Valid :=
  fun r hr => (valid r (current ▸ hr)).mono keep

/-- A raw recording keeps the build valid; if the result fits the term, it keeps the shapes. -/
theorem Valid.record {s : Session α} (valid : s.Valid) {term : Term α (Operand α)}
    (hold : ∀ x ∈ term.arguments, s.tensors[x.id]? = some x.tensor) {result : Operand α}
    (holdResult : s.tensors[result.id]? = some result.tensor) :
    Valid { s with recorder := (s.recorder.record term result).state } ∧
      (s.Shaped → result.tensor.shape = (term.map (·.tensor.shape)).shape →
        Shaped { s with recorder := (s.recorder.record term result).state }) := by
  rcases s.recorder.record_cases term result with ⟨e, eq⟩ | ⟨r, r', id, current, recorded, eq⟩
  · rw [eq]
    exact ⟨valid, fun shaped _ => shaped⟩
  · rw [eq]
    obtain ⟨valid', shaped'⟩ := (valid r current).record _ hold holdResult recorded
    constructor
    · rintro _ ⟨⟩
      exact valid'
    · rintro shaped fits _ ⟨⟩
      exact shaped' (shaped r current) fits

section Calls

variable [Zero α] [Add α] [Sub α] [Mul α] [Div α] [BEq α]

/-- A computation keeps the build valid and its shapes. -/
theorem Valid.compute {s : Session α} (valid : s.Valid) (term : Term α TensorId) :
    (s.perform (.compute term)).Valid ∧ (s.Shaped → (s.perform (.compute term)).Shaped) := by
  cases traversed : term.traverse s.operand with
  | error e =>
      simp only [perform, traversed]
      exact ⟨valid, id⟩
  | ok u =>
      have hold := traverse_operand_ok traversed
      simp only [perform, traversed]
      rcases s.recorder.compute_cases u s.tensors.length with same | ⟨value, computed, eq, answer⟩
      · unfold keep
        split
        · simp only [same]
          exact ⟨valid.mono rfl (keep_append _), id⟩
        · simp only [same]
          exact ⟨valid, id⟩
      · -- The value is recorded as a tensor that the caller holds.
        have valid' : Valid { s with tensors := s.tensors ++ [value] } :=
          valid.mono rfl (keep_append _)
        have hold' : ∀ x ∈ u.arguments, (s.tensors ++ [value])[x.id]? = some x.tensor := by
          intro x hx
          have lt := (List.getElem?_eq_some_iff.mp (hold x hx)).1
          exact (List.getElem?_append_left lt).trans (hold x hx)
        let result : Operand α := ⟨s.tensors.length, value⟩
        have holdResult : (s.tensors ++ [value])[result.id]? = some result.tensor :=
          List.getElem?_concat_length
        obtain ⟨recorded, shaped⟩ := valid'.record hold' holdResult
        simp only [keep, answer, eq]
        refine ⟨recorded, fun before => shaped before ?_⟩
        rw [Term.eval_shape computed, Term.map_map]

/-- Every call keeps the build that is going on valid. -/
theorem Valid.perform {s : Session α} (valid : s.Valid) (c : Call α) : (s.perform c).Valid := by
  cases c with
  | hold t => exact valid.mono rfl (keep_append _)
  | overwrite id t =>
      simp only [Session.perform]
      split
      · rename_i old hold
        split
        · rename_i shape
          exact valid.mono rfl (keep_set hold shape)
        · exact valid
      · exact valid
  | register ids => exact valid
  | begin input =>
      simp only [Session.perform]
      split
      · rename_i x named
        intro r h
        unfold Recorder.begin at h
        split at h
        · exact valid r h
        · cases h
          exact .start _ (operand_ok named).2
      · exact valid
  | record term result =>
      simp only [Session.perform]
      split
      · rename_i u x traversed named
        exact (valid.record (traverse_operand_ok traversed) (operand_ok named).2).1
      · exact valid
  | compute term => exact (valid.compute term).1
  | finish output =>
      intro r h
      simp only [Session.perform, Recorder.finish] at h
      split at h
      · exact valid r h
      · split at h <;> cases h

/-- A call that gives no result by hand keeps the shapes of the build that is going on. -/
theorem Shaped.perform {s : Session α} (valid : s.Valid) (shaped : s.Shaped) {c : Call α}
    (assisted : c.Assisted) : (s.perform c).Shaped := by
  cases c with
  | hold t => exact shaped
  | overwrite id t =>
      simp only [Session.perform]
      split
      · split <;> exact shaped
      · exact shaped
  | register ids => exact shaped
  | begin input =>
      simp only [Session.perform]
      split
      · intro r h
        unfold Recorder.begin at h
        split at h
        · exact shaped r h
        · cases h
          intro e he
          cases he
      · exact shaped
  | record term result => cases assisted
  | compute term => exact (valid.compute term).2 shaped
  | finish output =>
      intro r h
      simp only [Session.perform, Recorder.finish] at h
      split at h
      · exact shaped r h
      · split at h <;> cases h

/-- After every history the build that is going on is valid. -/
theorem reached_valid {s : Session α} (reached : s.Reached) : s.Valid := by
  obtain ⟨name, calls, rfl⟩ := reached
  refine run_preserves (fun c _ s valid => valid.perform c) fun r h => ?_
  cases h

/-- After a history that records by computing, begun while nothing was going on, the shapes of the
build that is going on follow the operations. -/
theorem assisted_shaped {s : Session α} (reached : s.Reached)
    (idle : s.recorder.isRecording = false) {calls : List (Call α)}
    (assisted : ∀ c ∈ calls, c.Assisted) : (s.run calls).Shaped := by
  refine (run_preserves (P := fun s => s.Valid ∧ s.Shaped) (fun c hc s hs => ?_)
    ⟨reached_valid reached, fun r h => ?_⟩).2
  · exact ⟨hs.1.perform c, hs.2.perform hs.1 (assisted c hc)⟩
  · simp [Recorder.isRecording, h] at idle

end Calls

end Session

end GradientReplay
