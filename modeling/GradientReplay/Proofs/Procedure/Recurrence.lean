import GradientReplay.Proofs.Procedure.Evaluation
import GradientReplay.Proofs.Procedure.Sequence

/-!
A recurrent procedure as a loop.

With plain tensors, the loop evaluates the expressions once a round, feeding each carried node with
the value that its producer had in the round before, and with zeros in the first round
(`Plan.unrolled`). After a reset, replaying a procedure at one index after the other does the same:
it fails in the round in which the loop fails and with the same error, and else every node holds at
every index the value of the loop (`Procedure.forwardRun_unrolled`).
-/

namespace GradientReplay

/-- Natural numbers below the number of indices are told apart as indices. -/
theorem Index.toUInt64_ne {t u : Nat} (before : t < u) (inside : u < 2 ^ 64) :
    t.toUInt64 ≠ u.toUInt64 := by
  intro same
  have wrapped := congrArg UInt64.toNat same
  simp only [UInt64.toNat_ofNat'] at wrapped
  omega

theorem Index.previous?_toUInt64 {t : Nat} (inside : t + 1 < 2 ^ 64) :
    Index.previous? (t + 1).toUInt64 = some t.toUInt64 := by
  rw [previous?_eq_some, UInt64.toNat_ofNat', UInt64.toNat_ofNat']
  omega

variable {α : Type} [Zero α] [Add α] [Sub α] [Mul α] [Div α] [BEq α]

/-! ### The loop -/

namespace Plan

/-- The values from which a round starts: the input; for the consumer of a link what the producer
was before; and for a constant its shared value. -/
def entering (P : Plan α) (constants : NodeId → Tensor α) (x : Tensor α)
    (before : NodeId → Tensor α) (n : NodeId) : Tensor α :=
  if n = P.input then x
  else
    match P.links.find? fun link => link.2 == n with
    | some link => before link.1
    | none => constants n

/-- The values after so many rounds of the loop; before the first round they are zeros. -/
def unrolled (P : Plan α) (constants : NodeId → Tensor α) (x : Nat → Tensor α) :
    Nat → Except TensorError (NodeId → Tensor α)
  | 0 => .ok fun n => .zeros (P.shapeOf n)
  | t + 1 => do
      let before ← P.unrolled constants x t
      Expression.evalAll P.forwardOrder (P.entering constants (x t) before)

/-- Each carried node is the consumer of a link. -/
def Linked (P : Plan α) : Prop := ∀ n, P.Carried n → n ∈ P.links.map Prod.snd

section Entering

variable {P : Plan α} {constants : NodeId → Tensor α} {x : Tensor α} {before : NodeId → Tensor α}
  {n : NodeId}

omit [Zero α] [Add α] [Sub α] [Mul α] [Div α] [BEq α] in
/-- The consumer of a link is fed from the producer of this link: no other link has this consumer. -/
theorem Valid.entering_consumer (valid : P.Valid) {link : NodeId × NodeId} (mem : link ∈ P.links) :
    P.entering constants x before link.2 = before link.1 := by
  have ne : link.2 ≠ P.input := by
    intro same
    exact valid.input.not_carried (same ▸ valid.consumers link mem)
  unfold entering
  rw [if_neg ne]
  cases found : P.links.find? fun other => other.2 == link.2 with
  | none =>
      have free := List.find?_eq_none.mp found link mem
      simp at free
  | some other =>
      have same : other.2 = link.2 := by simpa using List.find?_some found
      have eq := List.inj_on_of_nodup_map valid.distinct (List.mem_of_find?_eq_some found) mem same
      simp only [eq]

omit [Zero α] [Add α] [Sub α] [Mul α] [Div α] [BEq α] in
theorem Valid.entering_constant (valid : P.Valid) (constant : P.Constant n) :
    P.entering constants x before n = constants n := by
  have ne : n ≠ P.input := by
    rintro rfl
    exact valid.input.not_constant constant
  have free : (P.links.find? fun link => link.2 == n) = none := by
    rw [List.find?_eq_none]
    intro link mem same
    have same : link.2 = n := by simpa using same
    exact (valid.consumers link mem).not_constant (same ▸ constant)
  unfold entering
  rw [if_neg ne, free]

end Entering

theorem unrolled_succ_ok {P : Plan α} {constants : NodeId → Tensor α} {x : Nat → Tensor α} {t : Nat}
    {before : NodeId → Tensor α} (h : P.unrolled constants x t = .ok before) :
    P.unrolled constants x (t + 1) =
      Expression.evalAll P.forwardOrder (P.entering constants (x t) before) := by
  rw [unrolled, h]
  rfl

theorem unrolled_succ_error {P : Plan α} {constants : NodeId → Tensor α} {x : Nat → Tensor α}
    {t : Nat} {cause : TensorError} (h : P.unrolled constants x t = .error cause) :
    P.unrolled constants x (t + 1) = .error cause := by
  rw [unrolled, h]
  rfl

end Plan

/-! ### One replay -/

namespace Procedure

variable {p : Procedure α} {i : Index} {x : Tensor α} {before : NodeId → Tensor α}

omit [Add α] [Sub α] [Mul α] [Div α] [BEq α] in
/-- Before any expression is computed, the nodes that are no results hold the values from which a
round starts. -/
theorem seeded_entering (valid : p.plan.Valid) (linked : p.plan.Linked)
    (fed : ∀ l ∈ p.links, l.supplied i p.nodes = before l.producer) {n : NodeId}
    (inside : n < p.nodes.length) (free : ∀ e ∈ p.forwardOrder, e.result ≠ n) :
    (p.seeded i x).value? n i = some (p.plan.entering p.nodes.referenceAt x before n) := by
  by_cases isInput : n = p.input
  · subst isInput
    rw [seeded_input valid]
    exact congrArg some (if_pos rfl).symm
  rcases valid.leaves n (p.plan_nodes_length ▸ inside) isInput free with constant | carried
  · have apart : ∀ l ∈ p.links, l.consumer ≠ n := by
      rintro l hl rfl
      exact (consumer_carried valid hl).not_constant constant
    rw [seeded_other isInput apart, value?_of_constant constant, valid.entering_constant constant]
  · obtain ⟨link, mem, rfl⟩ := List.mem_map.mp (linked n carried)
    rw [valid.entering_consumer mem]
    obtain ⟨l, hl, rfl⟩ := List.mem_map.mp mem
    exact (seeded_consumer valid hl).trans (congrArg some (fed l hl))

/-- A replay forward is a round of the loop, if the links supply what the producers were in the
round before. -/
theorem forward_round (valid : p.plan.Valid) (linked : p.plan.Linked)
    (fed : ∀ l ∈ p.links, l.supplied i p.nodes = before l.producer) :
    let round := Expression.evalAll p.forwardOrder (p.plan.entering p.nodes.referenceAt x before)
    (p.forward i x).result = ofTensor (round.map fun _ => p.output) ∧
      ∀ values, round = .ok values → ∀ n < p.nodes.length,
        (p.forward i x).state.nodes.value? n i = some (values n) := by
  intro round
  have known : Expression.Known p.forwardOrder i (p.seeded i x)
      (p.plan.entering p.nodes.referenceAt x before) := by
    intro e he a ha free
    apply seeded_entering valid linked fed _ free
    have lt := valid.result_lt he
    rw [p.plan_nodes_length] at lt
    exact lt_trans (valid.ordered.arguments e he a ha) lt
  have ordered : Ordered p.forwardOrder := valid.ordered
  obtain ⟨result, final⟩ :=
    Expression.forwardAll_evalAll ordered (seeded_stores valid i x) known
  constructor
  · rw [forward_result, result]
    cases evaluated : round <;> simp only [round] at evaluated <;> rw [evaluated] <;> rfl
  · intro values evaluated n inside
    rw [forward_state]
    by_cases given : ∃ e ∈ p.forwardOrder, e.result = n
    · obtain ⟨e, he, rfl⟩ := given
      exact final values evaluated e he
    · have free : ∀ e ∈ p.forwardOrder, e.result ≠ n := fun e he give => given ⟨e, he, give⟩
      rw [Expression.evalAll_of_not_result evaluated free,
        ← seeded_entering valid linked fed inside free]
      exact Expression.forwardAll_value? (.inl free)

/-! ### Many replays -/

/-- Replay forward in a round of a run that begins at an index. -/
def forwardRound (first : Nat) (x : Nat → Tensor α) (p : Procedure α) (t : Nat) :
    Outcome ReplayError (Procedure α) Unit :=
  (p.forward (first + t).toUInt64 (x t)).andThen fun p _ => .done p ()

/-- Replay forward at so many indices from a first one on, until a replay fails. -/
def forwardRun (p : Procedure α) (first : Nat) (x : Nat → Tensor α) (rounds : Nat) :
    Outcome ReplayError (Procedure α) Unit :=
  .each (forwardRound first x) p (List.range rounds)

section Run

variable {first rounds : Nat} {inputs : Nat → Tensor α}

theorem forwardRound_state (p : Procedure α) (t : Nat) :
    (forwardRound first inputs p t).state = (p.forward (first + t).toUInt64 (inputs t)).state :=
  Outcome.andThen_done_state _ _

theorem forwardRun_succ (p : Procedure α) :
    p.forwardRun first inputs (rounds + 1) =
      (p.forwardRun first inputs rounds).andThen fun q _ => forwardRound first inputs q rounds := by
  unfold forwardRun
  rw [List.range_succ, Outcome.each_append]
  simp only [Outcome.each_singleton]

/-- What each replay forward keeps, a run of them keeps. -/
theorem forwardRun_preserves {P : Procedure α → Prop}
    (keep : ∀ p i x, P p → P (p.forward i x).state) (h : P p) :
    P (p.forwardRun first inputs rounds).state := by
  apply Outcome.each_preserves _ h
  intro q t _ h
  rw [forwardRound_state]
  exact keep q _ _ h

theorem forwardRun_plan : (p.forwardRun first inputs rounds).state.plan = p.plan := by
  apply forwardRun_preserves (P := fun q : Procedure α => q.plan = p.plan) _ rfl
  intro q i x same
  rw [q.forward_plan, same]

theorem forwardRun_unvalued :
    (p.forwardRun first inputs rounds).state.nodes.unvalued = p.nodes.unvalued := by
  apply forwardRun_preserves (P := fun q : Procedure α => q.nodes.unvalued = p.nodes.unvalued) _ rfl
  intro q i x same
  rw [q.forward_unvalued, same]

/-! ### After a reset -/

omit [Add α] [Sub α] [Mul α] [Div α] [BEq α] in
theorem reset_referenceAt (p : Procedure α) :
    p.reset.nodes.referenceAt = p.nodes.referenceAt := by
  funext n
  simp only [Nodes.referenceAt, reset, List.getElem?_map, Option.map_map]
  rfl

omit [Zero α] [Add α] [Sub α] [Mul α] [Div α] [BEq α] in
theorem reset_value? {n : NodeId} (computed : p.plan.Computed n) (j : Index) :
    p.reset.nodes.value? n j = none := by
  obtain ⟨profile, found, plain, -⟩ := computed
  rw [plan_nodes_getElem?] at found
  obtain ⟨c, hc, rfl⟩ := Option.map_eq_some_iff.mp found
  have varies : c.constant = false := plain
  simp [Nodes.value?, reset, hc, Node.reset, Node.value?, varies]

omit [Add α] [Sub α] [Mul α] [Div α] [BEq α] in
/-- After a reset the links supply zeros. -/
theorem reset_supplied (valid : p.plan.Valid) (i : Index) :
    ∀ l ∈ p.reset.links, l.supplied i p.reset.nodes = .zeros (p.plan.shapeOf l.producer) := by
  intro l hl
  obtain ⟨l', hl', rfl⟩ := List.mem_map.mp hl
  have unread : i.previous?.bind (p.reset.nodes.value? l'.reset.producer) = none := by
    cases i.previous? with
    | none => rfl
    | some j => exact reset_value? (producer_computed valid hl') j
  rw [← p.reset_plan, plan_shapeOf, Link.supplied, unread]
  rfl

/-- The run after a reset did what the loop does in as many rounds: it failed exactly if the loop
does, and with the same error, and the rounds that the loop goes through left its values. -/
structure Loops (p : Procedure α) (first : Nat) (inputs : Nat → Tensor α) (rounds : Nat) :
    Prop where
  result : (p.reset.forwardRun first inputs rounds).result =
    ofTensor ((p.plan.unrolled p.nodes.referenceAt inputs rounds).map fun _ => ())
  values : ∀ t < rounds, ∀ values,
    p.plan.unrolled p.nodes.referenceAt inputs (t + 1) = .ok values → ∀ n < p.nodes.length,
      (p.reset.forwardRun first inputs rounds).state.nodes.value? n (first + t).toUInt64 =
        some (values n)

/-- What the links supply in a round is what the producers were after the round before. -/
theorem Loops.supplied (loops : p.Loops first inputs rounds) (valid : p.plan.Valid)
    (bound : first + rounds < 2 ^ 64)
    (now : p.plan.unrolled p.nodes.referenceAt inputs rounds = .ok before) :
    let q := (p.reset.forwardRun first inputs rounds).state
    ∀ l ∈ q.links, l.supplied (first + rounds).toUInt64 q.nodes = before l.producer := by
  intro q l hl
  cases rounds with
  | zero =>
      cases now
      exact reset_supplied valid _ l hl
  | succ t =>
      have same : q.plan = p.plan := forwardRun_plan.trans p.reset_plan
      have inside : l.producer < p.nodes.length := by
        rw [← p.plan_nodes_length, ← same]
        exact (producer_computed (same ▸ valid) hl).lt
      have found := loops.values t (Nat.lt_succ_self t) before now l.producer inside
      have previous : Index.previous? (first + (t + 1)).toUInt64 = some (first + t).toUInt64 :=
        Index.previous?_toUInt64 bound
      rw [Link.supplied, previous, Option.bind_some, found]
      rfl

/-- When the loop has failed, the run stands still. -/
theorem Loops.succ_error (loops : p.Loops first inputs rounds) {cause : TensorError}
    (failed : p.plan.unrolled p.nodes.referenceAt inputs rounds = .error cause) :
    p.Loops first inputs (rounds + 1) := by
  have result : (p.reset.forwardRun first inputs rounds).result = .error (.tensor cause) := by
    rw [loops.result, failed]
    rfl
  have still : p.reset.forwardRun first inputs (rounds + 1) =
      p.reset.forwardRun first inputs rounds := by
    rw [forwardRun_succ, Outcome.andThen_of_error result, ← result]
  have stuck := Plan.unrolled_succ_error failed
  constructor
  · rw [still, stuck]
    exact result
  · intro t ht values after n inside
    rw [still]
    rcases Nat.lt_succ_iff_lt_or_eq.mp ht with ht | rfl
    · exact loops.values t ht values after n inside
    · rw [stuck] at after
      cases after

/-- While the loop goes on, one replay more is one round more. -/
theorem Loops.succ_ok (loops : p.Loops first inputs rounds) (valid : p.plan.Valid)
    (linked : p.plan.Linked) (bound : first + rounds < 2 ^ 64)
    (now : p.plan.unrolled p.nodes.referenceAt inputs rounds = .ok before) :
    p.Loops first inputs (rounds + 1) := by
  let q := (p.reset.forwardRun first inputs rounds).state
  have step : p.reset.forwardRun first inputs (rounds + 1) = forwardRound first inputs q rounds := by
    rw [forwardRun_succ]
    have ok := loops.result
    rw [now] at ok
    exact Outcome.andThen_of_ok ok
  have plan : q.plan = p.plan := forwardRun_plan.trans p.reset_plan
  have references : q.nodes.referenceAt = p.nodes.referenceAt :=
    (Nodes.referenceAt_of_unvalued forwardRun_unvalued).trans p.reset_referenceAt
  have length : q.nodes.length = p.nodes.length := by
    rw [← q.plan_nodes_length, plan, p.plan_nodes_length]
  obtain ⟨result, values⟩ := forward_round (x := inputs rounds) (plan ▸ valid) (plan ▸ linked)
    (loops.supplied valid bound now)
  have round : p.plan.unrolled p.nodes.referenceAt inputs (rounds + 1) =
      Expression.evalAll q.forwardOrder
        (q.plan.entering q.nodes.referenceAt (inputs rounds) before) := by
    have order : q.forwardOrder = p.plan.forwardOrder := congrArg Plan.forwardOrder plan
    rw [order, plan, references]
    exact Plan.unrolled_succ_ok now
  rw [← round] at result values
  constructor
  · rw [step]
    refine (Outcome.andThen_done_result _ _).trans ?_
    rw [result]
    cases p.plan.unrolled p.nodes.referenceAt inputs (rounds + 1) <;> rfl
  · intro t ht values' after n inside
    rw [step, forwardRound_state]
    rcases Nat.lt_succ_iff_lt_or_eq.mp ht with ht | rfl
    · -- An earlier index is not written any more.
      have ne : (first + t).toUInt64 ≠ (first + rounds).toUInt64 :=
        Index.toUInt64_ne (by omega) bound
      rw [forward_value?_of_not_written (.inr ne)]
      exact loops.values t ht values' after n inside
    · exact values values' after n (length.symm ▸ inside)

/-- By induction on the rounds: the run does what the loop does. -/
theorem forwardRun_loops (valid : p.plan.Valid) (linked : p.plan.Linked)
    (bound : first + rounds ≤ 2 ^ 64) : p.Loops first inputs rounds := by
  induction rounds with
  | zero => exact ⟨rfl, fun t ht => absurd ht (Nat.not_lt_zero t)⟩
  | succ k ih =>
      have loops := ih (by omega)
      cases now : p.plan.unrolled p.nodes.referenceAt inputs k with
      | error cause => exact loops.succ_error now
      | ok before => exact loops.succ_ok valid linked (by omega) now

end Run

variable [Neg α]

/-- After a reset, replaying a compiled procedure at one index after the other is the loop over its
expressions, with the shared values that the constants have: after any number of rounds the run has
failed exactly if the loop has, and with the same error, and at the index of each round that the loop
went through, every node holds the value of the loop. -/
theorem forwardRun_unrolled {p q : Procedure α} (compiled : Session.Compiled p)
    (reaches : p.Reaches q) (linked : p.plan.Linked) {first rounds : Nat}
    (bound : first + rounds ≤ 2 ^ 64) (inputs : Nat → Tensor α) :
    (∀ t ≤ rounds, (q.reset.forwardRun first inputs t).result =
        ofTensor ((p.plan.unrolled q.nodes.referenceAt inputs t).map fun _ => ())) ∧
      ∀ t < rounds, ∀ values, p.plan.unrolled q.nodes.referenceAt inputs (t + 1) = .ok values →
        ∀ n < p.plan.nodes.length,
          (q.reset.forwardRun first inputs rounds).state.nodes.value? n (first + t).toUInt64 =
            some (values n) := by
  have plan := reaches_plan reaches
  have valid : q.plan.Valid := plan ▸ compiled.plan_valid
  have linked : q.plan.Linked := plan ▸ linked
  rw [← plan, q.plan_nodes_length]
  constructor
  · intro t le
    exact (forwardRun_loops valid linked (by omega)).result
  · exact (forwardRun_loops valid linked bound).values

/-- Two builds of `a = a + x`, `b = b + a` with the old `a` in the second sum, the second build not
ended yet. -/
def pairSession : Session Int :=
  (Session.start "pair").run
    [.hold (.fill [1] 3), .hold (.fill [1] 0), .hold (.fill [1] 0),
      .begin 0, .compute (.arithmetic .add 1 0), .compute (.arithmetic .add 2 1), .finish 4,
      .begin 0, .compute (.arithmetic .add 3 0), .compute (.arithmetic .add 4 3)]

/-- What these builds compile to. -/
def pairProcedure : Procedure Int where
  name := "pair"
  forwardOrder := [⟨0, .arithmetic .add 1 0, 2⟩, ⟨1, .arithmetic .add 3 1, 4⟩]
  backwardOrder := [⟨1, .arithmetic .add 3 1, 4⟩]
  input := 0
  output := 4
  links := [.create 2 1, .create 4 3]
  nodes :=
    [.create 0 (.fill [1] 3) false 1 (.leaf 0), .create 1 (.fill [1] 3) false 0 (.carried 0),
      .create 2 (.fill [1] 6) false 1 (.result 0), .create 3 (.fill [1] 0) false 0 (.carried 1),
      .create 4 (.fill [1] 3) false 1 (.result 1)]
  bound := [(6, 4), (0, 0)]

theorem pair_compiled : Session.Compiled pairProcedure :=
  ⟨pairSession, 6, ⟨"pair", _, rfl⟩, rfl⟩

theorem pair_linked : pairProcedure.plan.Linked := by
  rintro (_ | _ | _ | _ | _ | n) ⟨c, hc, plain, carried⟩
  · cases hc
    cases carried
  · exact List.mem_cons_self
  · cases hc
    cases carried
  · exact List.mem_cons_of_mem _ List.mem_cons_self
  · cases hc
    cases carried
  · cases hc

/-- For the inputs 1, 2, 3 from the index 5 on, `a` comes to 6 and `b` to 4, whatever a replay left
there before. -/
theorem pair_unrolled :
    ∃ q, Session.Compiled pairProcedure ∧ pairProcedure.Reaches q ∧ pairProcedure.plan.Linked ∧
      q.nodes.value? 2 7 = some (.fill [1] 9) ∧
      (q.reset.forwardRun 5 (fun t => .fill [1] (t + 1)) 3).result = .ok () ∧
      (q.reset.forwardRun 5 (fun t => .fill [1] (t + 1)) 3).state.nodes.value? 2 7 =
        some (.fill [1] 6) ∧
      (q.reset.forwardRun 5 (fun t => .fill [1] (t + 1)) 3).state.nodes.value? 4 7 =
        some (.fill [1] 4) := by
  have reaches : pairProcedure.Reaches (pairProcedure.forward 7 (.fill [1] 9)).state :=
    ⟨[.forward 7 (.fill [1] 9)], rfl⟩
  obtain ⟨results, values⟩ := forwardRun_unrolled pair_compiled reaches pair_linked
    (show 5 + 3 ≤ 2 ^ 64 by decide) fun t => .fill [1] (t + 1)
  have references := Nodes.referenceAt_of_unvalued (pairProcedure.forward_unvalued 7 (.fill [1] 9))
  rw [references] at results values
  have index : (5 + 2).toUInt64 = (7 : Index) := rfl
  have found := values 2 (by decide) _ rfl
  rw [index] at found
  exact ⟨_, pair_compiled, reaches, pair_linked, rfl, results 3 le_rfl, found 2 (by decide),
    found 4 (by decide)⟩

end Procedure

end GradientReplay
