import GradientReplay.Proofs.Procedure.Restart
import GradientReplay.Proofs.Series.Parts

/-!
Replaying a sequence in parts.

To replay forward over a sequence is to replay over the part that comes first and, if this succeeds,
over the part that comes after it; going back it is the other way round. To go back over so many
steps is to go back over the entries at the largest indices. Either way the answer has an entry at
each index that was replayed, and there the output, or the gradient of the input, as the replay at
this index left it (`Procedure.series_split`).
-/

namespace GradientReplay.Procedure

variable {α : Type} [Zero α] [Add α] [Sub α] [Mul α] [Div α] [BEq α] {p : Procedure α}
  {a b s answers : Series (Tensor α)} {i : Index} {x : Tensor α}

/-! ### Answers with an index -/

/-- Among the answers of a run that answers each entry at its index there is the one that was given for
an entry when it was its turn. -/
theorem answer_at {ε σ β γ : Type} {step : σ → Index × β → Outcome ε σ (Index × γ)}
    (marked : ∀ s entry answer, (step s entry).result = .ok answer → answer.1 = entry.1) {s : σ}
    {before after : List (Index × β)} {b : β} {found : List (Index × γ)}
    (ok : (Outcome.collect step s (before ++ (i, b) :: after)).result = .ok found)
    (all : ∀ answer ∈ found, answer ∈ (Series.ofList found).entries) :
    ∃ c, (Series.ofList found).get? i = some c ∧
      (step (Outcome.collect step s before).state (i, b)).result = .ok (i, c) ∧
      (Outcome.collect step s (before ++ (i, b) :: after)).state =
        (Outcome.collect step (step (Outcome.collect step s before).state (i, b)).state
          after).state := by
  obtain ⟨early, ⟨j, c⟩, late, rfl, here, state⟩ := Outcome.collect_split_ok ok
  obtain rfl : j = i := marked _ _ _ here
  have stored : (j, c) ∈ (Series.ofList (early ++ (j, c) :: late)).entries :=
    all _ (List.mem_append_right early List.mem_cons_self)
  exact ⟨c, Series.find_of_mem (Series.sorted _) stored, here, state⟩

/-! ### Forward -/

theorem forwardSeries_state (p : Procedure α) (s : Series (Tensor α)) :
    (p.forwardSeries s).state = (Outcome.collect forwardEntry p s.entries).state :=
  Outcome.andThen_done_state _ _

theorem forwardSeries_union (before : a.Before b) (p : Procedure α) :
    p.forwardSeries (a.union b) =
      (p.forwardSeries a).andThen fun q early =>
        (q.forwardSeries b).andThen fun q late => .done q (early.union late) := by
  simp only [forwardSeries, Series.union_entries before, Outcome.collect_append,
    Outcome.andThen_assoc, Outcome.done_andThen, Series.ofList_append]

/-- The answer for one index is the output as the replay there left it. -/
theorem forwardEntry_ok {entry answer : Index × Tensor α}
    (ok : (p.forwardEntry entry).result = .ok answer) :
    answer.1 = entry.1 ∧
      (p.forward entry.1 entry.2).state.nodes.value? p.output entry.1 = some answer.2 := by
  have output : (p.forward entry.1 entry.2).state.output = p.output :=
    congrArg Plan.output (p.forward_plan entry.1 entry.2)
  obtain ⟨-, -, read⟩ := Outcome.andThen_ok.mp ok
  unfold outputValue at read
  rw [output] at read
  cases found : (p.forward entry.1 entry.2).state.nodes.value? p.output entry.1 with
  | none =>
      rw [Nodes.readValue, found] at read
      cases read
  | some v =>
      rw [Nodes.readValue_ok.mpr found] at read
      cases read
      exact ⟨rfl, rfl⟩

/-- A series of replays forward that succeeds answers at its indices, each with the output as the
replay there left it and as the later ones leave it. -/
theorem forwardSeries_answers (ok : (p.forwardSeries s).result = .ok answers) :
    answers.indices = s.indices ∧
      ∀ i x, s.get? i = some x →
        answers.get? i =
            ((p.forwardSeries (s.below i)).state.forward i x).state.nodes.value? p.output i ∧
          answers.get? i = (p.forwardSeries s).state.nodes.value? p.output i := by
  obtain ⟨found, collected, same⟩ := Outcome.andThen_ok.mp ok
  cases same
  have marked (q : Procedure α) (entry answer : Index × Tensor α)
      (ok : (q.forwardEntry entry).result = .ok answer) : answer.1 = entry.1 := (forwardEntry_ok ok).1
  have indices := Outcome.collect_marks (f := Prod.fst) (g := Prod.fst) marked collected
  have entries := Series.entries_ofList (Series.pairwise_of_indices s indices)
  refine ⟨(congrArg _ entries).trans indices, fun i x given => ?_⟩
  rw [forwardSeries_state p (s.below i), forwardSeries_state p s]
  have split := Series.entries_split given
  have output : (Outcome.collect forwardEntry p (s.below i).entries).state.output = p.output := by
    rw [← forwardSeries_state]
    exact congrArg Plan.output (p.forwardSeries_plan (s.below i))
  rw [split] at collected ⊢
  obtain ⟨v, stored, here, state⟩ :=
    answer_at marked collected fun answer hanswer => entries.symm ▸ hanswer
  obtain ⟨-, value⟩ := forwardEntry_ok here
  rw [output] at value
  refine ⟨stored.trans value.symm, ?_⟩
  -- The later replays are at other indices.
  rw [stored, state, collect_forward_value?, forwardEntry_state]
  · exact value.symm
  · intro entry hentry
    have above := (List.mem_filter.mp hentry).2
    exact (UInt64.ne_of_lt (of_decide_eq_true above)).symm

/-! ### Back -/

section Back

variable [Neg α]

theorem backwardSeries_state (p : Procedure α) (s : Series (Tensor α)) :
    (p.backwardSeries s none).state =
      (Outcome.collect backwardEntry p s.entries.reverse).state := by
  rw [backwardSeries_all, Outcome.andThen_done_state]

theorem backwardSeries_union (before : a.Before b) (p : Procedure α) :
    p.backwardSeries (a.union b) none =
      (p.backwardSeries b none).andThen fun q late =>
        (q.backwardSeries a none).andThen fun q early => .done q (late.union early) := by
  simp only [backwardSeries_all, Series.union_entries before, List.reverse_append,
    Outcome.collect_append, Outcome.andThen_assoc, Outcome.done_andThen, Series.ofList_append]

/-- To go back over so many steps is to go back over the entries at the largest indices. -/
theorem backwardSeries_last (p : Procedure α) (s : Series (Tensor α)) {k : Nat} (positive : 0 < k) :
    p.backwardSeries s (some k) = p.backwardSeries (s.last k) none := by
  have steps : stepCount (some k) s.size = k := by
    cases k with
    | zero => cases positive
    | succ k => rfl
  rw [backwardSeries_all, backwardSeries, steps, List.take_reverse]
  rfl

/-- The answer for one index is the gradient of the input as the replay there left it. -/
theorem backwardEntry_ok {entry answer : Index × Tensor α}
    (ok : (p.backwardEntry entry).result = .ok answer) :
    answer.1 = entry.1 ∧ answer.2 =
      ((p.backward entry.1 entry.2).state.nodes.gradient? p.input entry.1).getD
        (.zeros (Link.shapeOf p.nodes p.input)) := by
  obtain ⟨node, back, same⟩ := Outcome.andThen_ok.mp ok
  cases same
  have shape := Nodes.shapeOf_of_ungraded (p.backward_ungraded entry.1 entry.2)
  obtain rfl : p.input = node := by
    obtain ⟨given, -⟩ := backward_ok back
    rw [(backward_of_given given).2] at back
    cases swept : (Expression.backwardAll entry.1 p.backwardOrder
        (p.given entry.1 entry.2).state.2).result with
    | error e =>
        rw [swept] at back
        cases back
    | ok b =>
        rw [swept] at back
        cases back
        rfl
  exact ⟨rfl, by rw [shape]⟩

/-- A series of replays back that succeeds answers at its indices, each with the gradient of the
input as the replay there left it and as the later ones leave it. -/
theorem backwardSeries_answers (ok : (p.backwardSeries s none).result = .ok answers) :
    answers.indices = s.indices ∧
      ∀ i g, s.get? i = some g →
        answers.get? i = some
            ((((p.backwardSeries (s.above i) none).state.backward i g).state.nodes.gradient?
              p.input i).getD (.zeros (Link.shapeOf p.nodes p.input))) ∧
          answers.get? i = some (((p.backwardSeries s none).state.nodes.gradient? p.input i).getD
            (.zeros (Link.shapeOf p.nodes p.input))) := by
  rw [backwardSeries_all] at ok
  obtain ⟨found, collected, same⟩ := Outcome.andThen_ok.mp ok
  cases same
  have marked (q : Procedure α) (entry answer : Index × Tensor α)
      (ok : (q.backwardEntry entry).result = .ok answer) : answer.1 = entry.1 :=
    (backwardEntry_ok ok).1
  have marks := Outcome.collect_marks (f := Prod.fst) (g := Prod.fst) marked collected
  have indices : found.reverse.map Prod.fst = s.entries.map Prod.fst := by
    rw [List.map_reverse, marks, List.map_reverse, List.reverse_reverse]
  have entries := Series.entries_ofList_reverse (Series.pairwise_of_indices s indices)
  rw [List.reverse_reverse] at entries
  refine ⟨(congrArg _ entries).trans indices, fun i g given => ?_⟩
  rw [backwardSeries_state p (s.above i), backwardSeries_state p s]
  have plan :
      (Outcome.collect backwardEntry p (s.above i).entries.reverse).state.plan = p.plan := by
    rw [← backwardSeries_state]
    exact p.replay_plan (.backwardSeries (s.above i) none)
  have split : s.entries.reverse =
      (s.above i).entries.reverse ++ (i, g) :: (s.below i).entries.reverse := by
    rw [Series.entries_split given, List.reverse_append, List.reverse_cons, List.append_assoc]
    rfl
  rw [split] at collected ⊢
  obtain ⟨v, stored, here, state⟩ := answer_at marked collected fun answer hanswer =>
    entries.symm ▸ List.mem_reverse.mpr hanswer
  obtain ⟨-, value⟩ := backwardEntry_ok here
  have input := congrArg Plan.input plan
  have shape := Nodes.shapeOf_of_profiles (congrArg Plan.nodes plan)
  simp only [Procedure.plan] at input
  dsimp only at value
  rw [input, shape] at value
  refine ⟨stored.trans (congrArg some value), ?_⟩
  -- The later replays are at other indices.
  rw [stored, state, collect_backward_gradient?, backwardEntry_state]
  · exact congrArg some value
  · intro entry hentry
    have below := (List.mem_filter.mp (List.mem_reverse.mp hentry)).2
    exact (UInt64.ne_of_lt (of_decide_eq_true below)).symm

/-- Replays over sequences split and are cut short cleanly. Over a sequence and one that comes after
it they go as over the two parts in turn, forward over the first part first and back over the second
one first: with the same state, the answers of both put together, or the first failure. To go back
over so many steps is to go back over the largest indices, and no step at all stands for all of
them. A replay that succeeds answers at the indices it was given: forward the output and back the
gradient of the input, or zeros if it has none, as the replay at the index leaves it after those
before and as it is at the end. -/
theorem series_split (before : a.Before b) (p : Procedure α) :
    p.forwardSeries (a.union b) =
        ((p.forwardSeries a).andThen fun q early =>
          (q.forwardSeries b).andThen fun q late => .done q (early.union late)) ∧
      p.backwardSeries (a.union b) none =
        ((p.backwardSeries b none).andThen fun q late =>
          (q.backwardSeries a none).andThen fun q early => .done q (late.union early)) ∧
      (∀ s, ∀ k > 0, p.backwardSeries s (some k) = p.backwardSeries (s.last k) none) ∧
      (∀ s, p.backwardSeries s (some 0) = p.backwardSeries s none) ∧
      (∀ s answers, (p.forwardSeries s).result = .ok answers →
        answers.indices = s.indices ∧
          ∀ i x, s.get? i = some x →
            answers.get? i =
                ((p.forwardSeries (s.below i)).state.forward i x).state.nodes.value? p.output i ∧
              answers.get? i = (p.forwardSeries s).state.nodes.value? p.output i) ∧
      ∀ s answers, (p.backwardSeries s none).result = .ok answers →
        answers.indices = s.indices ∧
          ∀ i g, s.get? i = some g →
            answers.get? i = some
                ((((p.backwardSeries (s.above i) none).state.backward i g).state.nodes.gradient?
                  p.input i).getD (.zeros (Link.shapeOf p.nodes p.input))) ∧
              answers.get? i = some (((p.backwardSeries s none).state.nodes.gradient? p.input i).getD
                (.zeros (Link.shapeOf p.nodes p.input))) :=
  ⟨forwardSeries_union before p, backwardSeries_union before p,
    fun s _ positive => backwardSeries_last p s positive, fun _ => rfl,
    fun _ _ ok => forwardSeries_answers ok, fun _ _ ok => backwardSeries_answers ok⟩

end Back

/-- An entry at the index 3. -/
def decayEarly : Series (Tensor Int) := .ofList [(3, .fill [1] 1)]

/-- Entries at the indices 4 and 40. -/
def decayLate : Series (Tensor Int) := .ofList [(4, .fill [1] 2), (40, .fill [1] 1)]

/-- What the state is after a replay over all three indices. -/
def decayDone : Procedure Int := (decayProcedure.forwardSeries (decayEarly.union decayLate)).state

/-- Forward over the indices 3, 4 and 40, and back over the last two of them. The index 39 holds
nothing, so at 40 the link hands on what it read for 4. -/
theorem decay_split :
    ∃ outputs found, decayEarly.Before decayLate ∧
      (decayProcedure.forwardSeries (decayEarly.union decayLate)).result = .ok outputs ∧
      outputs.indices = [3, 4, 40] ∧ outputs.get? 40 = some (.fill [1] 3) ∧
      decayProcedure.forwardSeries (decayEarly.union decayLate) =
        ((decayProcedure.forwardSeries decayEarly).andThen fun q early =>
          (q.forwardSeries decayLate).andThen fun q late => .done q (early.union late)) ∧
      (decayDone.backwardSeries (decayEarly.union decayLate) (some 2)).result = .ok found ∧
      found.indices = [4, 40] ∧ found.get? 4 = some (.fill [1] 2) := by
  have before : decayEarly.Before decayLate := by decide
  obtain ⟨forward, -, -, -, answered, -⟩ := series_split before decayProcedure
  obtain ⟨-, -, last, -, -, found⟩ := series_split before decayDone
  have computed : (decayProcedure.forwardSeries (decayEarly.union decayLate)).result =
      .ok (.ofList [(3, .fill [1] 1), (4, .fill [1] 4), (40, .fill [1] 3)]) := rfl
  have backed : (decayDone.backwardSeries ((decayEarly.union decayLate).last 2) none).result =
      .ok (.ofList [(4, .fill [1] 2), (40, .fill [1] 1)]) := rfl
  obtain ⟨outputIndices, output⟩ := answered _ _ computed
  obtain ⟨foundIndices, gradient⟩ := found _ _ backed
  rw [last _ 2 (by decide)]
  refine ⟨_, _, before, computed, ?_, ?_, forward, backed, ?_, ?_⟩
  · exact outputIndices.trans (by decide)
  · exact (output 40 (.fill [1] 1) rfl).2
  · exact foundIndices.trans (by decide)
  · exact (gradient 4 (.fill [1] 2) rfl).2

end GradientReplay.Procedure
