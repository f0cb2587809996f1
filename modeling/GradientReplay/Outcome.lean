/-!
Runs that may stop half way. An outcome keeps the state that the run left behind also when it
stopped with an error, so that the part of the work that was done can be seen.
-/

namespace GradientReplay

/-- A computation that goes on gives what its second part gives on the answer of the first. -/
theorem bind_ok_iff {ε β γ : Type} {first : Except ε β} {next : β → Except ε γ} {c : γ} :
    (first >>= next) = .ok c ↔ ∃ b, first = .ok b ∧ next b = .ok c := by
  cases first with
  | ok b =>
      constructor
      · intro h
        exact ⟨b, rfl, h⟩
      · rintro ⟨b', hb, h⟩
        cases hb
        exact h
  | error e =>
      constructor
      · intro h
        cases h
      · rintro ⟨b', hb, -⟩
        cases hb

/-- A computation that goes on fails in its first part, or in its second part on the answer of the
first. -/
theorem bind_error_iff {ε β γ : Type} {first : Except ε β} {next : β → Except ε γ} {e : ε} :
    (first >>= next) = .error e ↔
      first = .error e ∨ ∃ b, first = .ok b ∧ next b = .error e := by
  cases first with
  | ok b =>
      constructor
      · intro h
        exact .inr ⟨b, rfl, h⟩
      · rintro (h | ⟨b', hb, h⟩)
        · cases h
        · cases hb
          exact h
  | error e' =>
      constructor
      · intro h
        cases h
        exact .inl rfl
      · rintro (h | ⟨b', hb, -⟩)
        · cases h
          rfl
        · cases hb

/-- What is said of every place of a list, split off at the first one. -/
theorem forall_split_cons {β : Type} {P : List β → β → Prop} {b : β} {bs : List β} :
    (∀ before c after, b :: bs = before ++ c :: after → P before c) ↔
      P [] b ∧ ∀ before c after, bs = before ++ c :: after → P (b :: before) c := by
  constructor
  · intro h
    exact ⟨h [] b bs rfl, fun before c after split => h (b :: before) c after (by rw [split]; rfl)⟩
  · rintro ⟨first, later⟩ before c after split
    cases before with
    | nil =>
        cases split
        exact first
    | cons d before =>
        cases split
        exact later before c after rfl

/-- The end of a run: the state it left, and its answer or the error that stopped it. -/
@[ext]
structure Outcome (ε σ β : Type) where
  state : σ
  result : Except ε β

namespace Outcome

variable {ε σ τ β γ : Type}

/-- A run that only answers. -/
def done (state : σ) (answer : β) : Outcome ε σ β := ⟨state, .ok answer⟩

/-- Go on from where a run ended, unless an error stopped it. -/
def andThen (first : Outcome ε σ β) (next : σ → β → Outcome ε σ γ) : Outcome ε σ γ :=
  match first.result with
  | .ok answer => next first.state answer
  | .error e => ⟨first.state, .error e⟩

/-- A change of the state that is made whole or not at all. -/
def ofExcept (state : σ) : Except ε σ → Outcome ε σ Unit
  | .ok state' => ⟨state', .ok ()⟩
  | .error e => ⟨state, .error e⟩

/-- Take the steps in order until one stops with an error. -/
def each (step : σ → τ → Outcome ε σ Unit) : σ → List τ → Outcome ε σ Unit
  | state, [] => done state ()
  | state, t :: ts => (step state t).andThen fun state _ => each step state ts

/-- Take the steps in order until one stops with an error, and list their answers. -/
def collect (step : σ → τ → Outcome ε σ β) : σ → List τ → Outcome ε σ (List β)
  | state, [] => done state []
  | state, t :: ts =>
      (step state t).andThen fun state answer =>
        (collect step state ts).andThen fun state answers => done state (answer :: answers)

/-- The same run seen as a change of a larger state. -/
def embed (wrap : σ → τ) (run : Outcome ε σ β) : Outcome ε τ β := ⟨wrap run.state, run.result⟩

/-! ### Laws of runs -/

@[simp] theorem done_state (s : σ) (b : β) : (done s b : Outcome ε σ β).state = s := rfl

@[simp] theorem done_result (s : σ) (b : β) : (done s b : Outcome ε σ β).result = .ok b := rfl

@[simp] theorem embed_state (wrap : σ → τ) (run : Outcome ε σ β) :
    (run.embed wrap).state = wrap run.state := rfl

@[simp] theorem embed_result (wrap : σ → τ) (run : Outcome ε σ β) :
    (run.embed wrap).result = run.result := rfl

/-- To answer from where a run ended leaves the state as it is. -/
@[simp] theorem andThen_done_state (run : Outcome ε σ β) (answer : σ → β → γ) :
    (run.andThen fun s b => done s (answer s b)).state = run.state := by
  unfold andThen
  split <;> rfl

@[simp] theorem andThen_done_result (run : Outcome ε σ β) (answer : σ → β → γ) :
    (run.andThen fun s b => done s (answer s b)).result = run.result.map (answer run.state) := by
  unfold andThen
  split
  · rename_i b hb
    rw [hb]
    rfl
  · rename_i e he
    rw [he]
    rfl

/-- Nothing is added to a run that answers nothing. -/
theorem andThen_done (run : Outcome ε σ Unit) : (run.andThen fun s _ => done s ()) = run := by
  cases run with
  | mk state result => cases result <;> rfl

/-- A run that answers what its first part answered is its first part. -/
theorem andThen_self (run : Outcome ε σ β) : run.andThen done = run := by
  cases run with
  | mk state result => cases result <;> rfl

theorem done_andThen (s : σ) (b : β) (next : σ → β → Outcome ε σ γ) :
    (done s b).andThen next = next s b := rfl

theorem andThen_assoc {υ : Type} (first : Outcome ε σ β) (next : σ → β → Outcome ε σ γ)
    (last : σ → γ → Outcome ε σ υ) :
    (first.andThen next).andThen last = first.andThen fun s b => (next s b).andThen last := by
  cases first with
  | mk state result => cases result <;> rfl

/-- A run that goes on answers when both parts do. -/
theorem andThen_ok {first : Outcome ε σ β} {next : σ → β → Outcome ε σ γ} {c : γ} :
    (first.andThen next).result = .ok c ↔
      ∃ b, first.result = .ok b ∧ (next first.state b).result = .ok c := by
  unfold andThen
  split
  · rename_i b hb
    simp [hb]
  · rename_i e he
    simp [he]

theorem andThen_of_ok {first : Outcome ε σ β} {next : σ → β → Outcome ε σ γ} {b : β}
    (h : first.result = .ok b) : first.andThen next = next first.state b := by
  simp [andThen, h]

theorem andThen_of_error {first : Outcome ε σ β} {next : σ → β → Outcome ε σ γ} {e : ε}
    (h : first.result = .error e) : first.andThen next = ⟨first.state, .error e⟩ := by
  simp [andThen, h]

/-- What both parts of a run keep, the run keeps. -/
theorem andThen_preserves {P : σ → Prop} {first : Outcome ε σ β}
    {next : σ → β → Outcome ε σ γ} (hfirst : P first.state)
    (hnext : ∀ b, P (next first.state b).state) : P (first.andThen next).state := by
  unfold andThen
  split
  · exact hnext _
  · exact hfirst

theorem ofExcept_ok {s : σ} {change : Except ε σ} :
    (ofExcept s change).result = .ok () ↔ change = .ok (ofExcept s change).state := by
  cases change <;> simp [ofExcept]

theorem ofExcept_error {s : σ} {change : Except ε σ} {e : ε} :
    (ofExcept s change).result = .error e ↔ change = .error e := by
  cases change <;> simp [ofExcept]

theorem ofExcept_preserves {P : σ → Prop} {s : σ} {change : Except ε σ} (hs : P s)
    (hchange : ∀ s', change = .ok s' → P s') : P (ofExcept s change).state := by
  cases change with
  | ok s' => exact hchange s' rfl
  | error e => exact hs

section Each

variable {step : σ → τ → Outcome ε σ Unit}

theorem each_cons (s : σ) (t : τ) (ts : List τ) :
    each step s (t :: ts) = (step s t).andThen fun s _ => each step s ts := rfl

theorem each_singleton (s : σ) (t : τ) : each step s [t] = step s t := andThen_done _

/-- What each step keeps, the run keeps, however far it gets. -/
theorem each_preserves {P : σ → Prop} {ts : List τ}
    (keep : ∀ s, ∀ t ∈ ts, P s → P (step s t).state) {s : σ} (hs : P s) :
    P (each step s ts).state := by
  induction ts generalizing s with
  | nil => exact hs
  | cons t ts ih =>
      have first := keep s t List.mem_cons_self hs
      exact andThen_preserves first fun _ =>
        ih (fun s u hu => keep s u (List.mem_cons_of_mem t hu)) first

theorem each_append (s : σ) (ts us : List τ) :
    each step s (ts ++ us) = (each step s ts).andThen fun s _ => each step s us := by
  induction ts generalizing s with
  | nil => rfl
  | cons t ts ih =>
      rw [List.cons_append, each_cons, each_cons]
      cases h : (step s t).result with
      | ok b => rw [andThen_of_ok h, andThen_of_ok h, ih]
      | error e => rw [andThen_of_error h, andThen_of_error h, andThen_of_error rfl]

/-- What each successful step adds to, a successful run adds to, as told by its steps. -/
theorem each_gains {I H : σ → Prop} {R : τ → Prop}
    (gain : ∀ s t, I s → (step s t).result = .ok () →
      I (step s t).state ∧ (H (step s t).state ↔ H s ∨ R t))
    {s : σ} (hs : I s) {ts : List τ} (ok : (each step s ts).result = .ok ()) :
    H (each step s ts).state ↔ H s ∨ ∃ t ∈ ts, R t := by
  induction ts generalizing s with
  | nil => simp [each]
  | cons t ts ih =>
      rw [each_cons] at ok ⊢
      obtain ⟨⟨⟩, first, later⟩ := andThen_ok.mp ok
      obtain ⟨next, gained⟩ := gain s t hs first
      rw [andThen_of_ok first, ih next later, gained, or_assoc]
      simp

/-- A run fails where a step fails, after all steps before it succeeded. -/
theorem each_error {s : σ} {ts : List τ} {e : ε} :
    (each step s ts).result = .error e ↔
      ∃ before t after, ts = before ++ t :: after ∧ (each step s before).result = .ok () ∧
        (step (each step s before).state t).result = .error e := by
  constructor
  · intro failed
    induction ts generalizing s with
    | nil => cases failed
    | cons t ts ih =>
        rw [each_cons] at failed
        cases first : (step s t).result with
        | error e' =>
            rw [andThen_of_error first] at failed
            cases failed
            exact ⟨[], t, ts, rfl, rfl, first⟩
        | ok b =>
            rw [andThen_of_ok first] at failed
            obtain ⟨before, u, after, split, ok, there⟩ := ih failed
            refine ⟨t :: before, u, after, by rw [split]; rfl, ?_, ?_⟩
            · rw [each_cons, andThen_of_ok first]
              exact ok
            · rw [each_cons, andThen_of_ok first]
              exact there
  · rintro ⟨before, t, after, rfl, ok, failed⟩
    rw [each_append, andThen_of_ok ok, each_cons, andThen_of_error failed]

end Each

/-- A run with answers succeeds when its first step does and the run of the others. -/
theorem collect_cons_ok {step : σ → τ → Outcome ε σ β} {s : σ} {t : τ} {ts : List τ}
    {answers : List β} (h : (collect step s (t :: ts)).result = .ok answers) :
    (∃ answer, (step s t).result = .ok answer) ∧
      (∃ rest, (collect step (step s t).state ts).result = .ok rest) ∧
        (collect step s (t :: ts)).state = (collect step (step s t).state ts).state := by
  unfold collect at h
  obtain ⟨answer, first, later⟩ := andThen_ok.mp h
  obtain ⟨rest, others, -⟩ := andThen_ok.mp later
  refine ⟨⟨answer, first⟩, ⟨rest, others⟩, ?_⟩
  rw [collect, andThen_of_ok first, andThen_done_state]

theorem collect_cons_of_ok {step : σ → τ → Outcome ε σ β} {s : σ} {t : τ} {ts : List τ}
    {answer : β} {answers : List β} (first : (step s t).result = .ok answer)
    (rest : (collect step (step s t).state ts).result = .ok answers) :
    collect step s (t :: ts) = done (collect step (step s t).state ts).state (answer :: answers) := by
  rw [collect, andThen_of_ok first, andThen_of_ok rest]

/-- A run with answers over two lists is the run over the first and, if it succeeds, the run over
the second. -/
theorem collect_append {step : σ → τ → Outcome ε σ β} (s : σ) (ts us : List τ) :
    collect step s (ts ++ us) = (collect step s ts).andThen fun s answers =>
      (collect step s us).andThen fun s more => done s (answers ++ more) := by
  induction ts generalizing s with
  | nil => exact (andThen_self _).symm
  | cons t ts ih =>
      simp only [List.cons_append, collect, ih, andThen_assoc]
      rfl

/-- A run that succeeds comes to each of its steps and succeeds there, with an answer in its
place. -/
theorem collect_split_ok {step : σ → τ → Outcome ε σ β} {s : σ} {before after : List τ} {t : τ}
    {answers : List β} (ok : (collect step s (before ++ t :: after)).result = .ok answers) :
    ∃ early answer late, answers = early ++ answer :: late ∧
      (step (collect step s before).state t).result = .ok answer ∧
      (collect step s (before ++ t :: after)).state =
        (collect step (step (collect step s before).state t).state after).state := by
  rw [collect_append] at ok
  obtain ⟨early, first, rest⟩ := andThen_ok.mp ok
  obtain ⟨others, others_ok, same⟩ := andThen_ok.mp rest
  cases same
  rw [collect] at others_ok
  obtain ⟨answer, here, rest⟩ := andThen_ok.mp others_ok
  obtain ⟨late, -, same⟩ := andThen_ok.mp rest
  cases same
  refine ⟨early, answer, late, rfl, here, ?_⟩
  rw [collect_append, andThen_of_ok first, andThen_done_state, collect, andThen_of_ok here,
    andThen_done_state]

/-- If each step marks its answer with something that it was given, the marks of the answers are
those of the steps, in order. -/
theorem collect_marks {υ : Type} {step : σ → τ → Outcome ε σ β} {f : τ → υ} {g : β → υ}
    (marked : ∀ s t answer, (step s t).result = .ok answer → g answer = f t) {s : σ} {ts : List τ}
    {answers : List β} (ok : (collect step s ts).result = .ok answers) :
    answers.map g = ts.map f := by
  induction ts generalizing s answers with
  | nil =>
      cases ok
      rfl
  | cons t ts ih =>
      rw [collect] at ok
      obtain ⟨answer, here, rest⟩ := andThen_ok.mp ok
      obtain ⟨others, later, same⟩ := andThen_ok.mp rest
      cases same
      rw [List.map_cons, List.map_cons, marked s t answer here, ih later]

/-- What each step keeps, a run with answers keeps, however far it gets. -/
theorem collect_preserves {P : σ → Prop} {step : σ → τ → Outcome ε σ β}
    (keep : ∀ s t, P s → P (step s t).state) {s : σ} (hs : P s) (ts : List τ) :
    P (collect step s ts).state := by
  induction ts generalizing s with
  | nil => exact hs
  | cons t ts ih =>
      refine andThen_preserves (keep s t hs) fun _ => ?_
      exact andThen_preserves (ih (keep s t hs)) fun _ => ih (keep s t hs)

/-! ### Runs seen through a view -/

theorem ofExcept_map (view : σ → σ) (s : σ) (change : Except ε σ) :
    ofExcept (view s) (change.map view) = (ofExcept s change).embed view := by
  cases change <;> rfl

/-- If both parts of a run can be seen through a view, the run can. -/
theorem embed_andThen {view : σ → τ} {first : Outcome ε σ β} {next : σ → β → Outcome ε σ γ}
    {next' : τ → β → Outcome ε τ γ} (along : ∀ b, next' (view first.state) b =
      (next first.state b).embed view) :
    (first.embed view).andThen next' = (first.andThen next).embed view := by
  cases result : first.result with
  | ok b =>
      rw [andThen_of_ok result, andThen_of_ok ((embed_result view first).trans result)]
      exact along b
  | error e =>
      rw [andThen_of_error result, andThen_of_error ((embed_result view first).trans result)]
      rfl

/-- If each step of a run can be seen through a view, the run can. -/
theorem each_embed {view : σ → σ} {step : σ → τ → Outcome ε σ Unit}
    (along : ∀ s t, step (view s) t = (step s t).embed view) (s : σ) (ts : List τ) :
    each step (view s) ts = (each step s ts).embed view := by
  induction ts generalizing s with
  | nil => rfl
  | cons t ts ih =>
      rw [each_cons, each_cons, along]
      exact embed_andThen fun _ => ih (step s t).state

/-- If each step of a run with answers can be seen through a view, the run can. -/
theorem collect_embed {view : σ → σ} {step : σ → τ → Outcome ε σ β}
    (along : ∀ s t, step (view s) t = (step s t).embed view) (s : σ) (ts : List τ) :
    collect step (view s) ts = (collect step s ts).embed view := by
  induction ts generalizing s with
  | nil => rfl
  | cons t ts ih =>
      rw [collect, collect, along]
      apply embed_andThen
      intro answer
      rw [ih]
      exact embed_andThen fun _ => rfl

/-- A change that is made, seen through a view. -/
theorem ofExcept_embed_of_ok {view : σ → τ} {s : σ} {change : Except ε σ} {change' : Except ε τ}
    (ok : (ofExcept s change).result = .ok ())
    (along : ∀ s', change = .ok s' → change' = .ok (view s')) :
    ofExcept (view s) change' = (ofExcept s change).embed view := by
  cases change with
  | error e => cases ok
  | ok s' =>
      rw [along s' rfl]
      rfl

/-- If each step that succeeds can be seen through a view, a run that succeeds can. -/
theorem each_embed_of_ok {view : σ → σ} {step : σ → τ → Outcome ε σ Unit} {ts : List τ}
    (along : ∀ s, ∀ t ∈ ts, (step s t).result = .ok () → step (view s) t = (step s t).embed view)
    {s : σ} (ok : (each step s ts).result = .ok ()) :
    each step (view s) ts = (each step s ts).embed view := by
  induction ts generalizing s with
  | nil => rfl
  | cons t ts ih =>
      rw [each_cons] at ok ⊢
      obtain ⟨⟨⟩, first, later⟩ := andThen_ok.mp ok
      rw [each_cons, along s t List.mem_cons_self first]
      rw [andThen_of_ok first, andThen_of_ok ((embed_result view _).trans first)]
      exact ih (fun s u hu => along s u (List.mem_cons_of_mem t hu)) later

end Outcome

end GradientReplay
