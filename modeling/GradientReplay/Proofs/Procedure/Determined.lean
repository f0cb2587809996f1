import GradientReplay.Proofs.Procedure.Evaluation
import GradientReplay.Proofs.Procedure.Order
import GradientReplay.Proofs.Recorder.Faithful

/-!
What a replay forward depends on.

When it succeeds all equations hold at its index, and the values there are determined by the input,
the shared values of the constants and what the links supply (`Procedure.Alike`); nothing that was
stored at the index before has any influence (`Procedure.forward_determined`). In particular, with
the input and the constants as they were when the procedure was recorded by computing, a replay
forward gives back the tensors that were computed then.
-/

namespace GradientReplay

variable {α : Type} [Zero α]

namespace Procedure

/-- At an index, the constants of both procedures have the same shared values, and their links supply
the same. -/
structure Alike (i : Index) (p q : Procedure α) : Prop where
  constants : ∀ n, p.plan.Constant n → q.nodes.referenceAt n = p.nodes.referenceAt n
  links : ∀ l ∈ p.links, ∀ l' ∈ q.links, l'.consumer = l.consumer →
    l'.supplied i q.nodes = l.supplied i p.nodes

variable {p q : Procedure α} {i : Index} {x : Tensor α}

/-- Procedures that are alike agree before any expression is computed, but for the results. -/
theorem Alike.seeded (alike : p.Alike i q) (plan : q.plan = p.plan) (valid : p.plan.Valid)
    (vacant : p.Vacant) (vacant' : q.Vacant) {n : NodeId}
    (free : ∀ e ∈ p.forwardOrder, e.result ≠ n) :
    (q.seeded i x).value? n i = (p.seeded i x).value? n i := by
  have valid' : q.plan.Valid := plan ▸ valid
  have input : q.input = p.input := congrArg Plan.input plan
  have links : q.links.map Link.ends = p.links.map Link.ends := congrArg Plan.links plan
  by_cases isInput : n = p.input
  · rw [isInput, seeded_input valid, ← input, seeded_input valid']
  by_cases isConsumer : ∃ l ∈ p.links, l.consumer = n
  · obtain ⟨l, hl, rfl⟩ := isConsumer
    obtain ⟨l', hl', same⟩ := List.mem_map.mp (links ▸ List.mem_map_of_mem hl)
    have consumer : l'.consumer = l.consumer := congrArg Prod.snd same
    rw [seeded_consumer valid hl, ← consumer, seeded_consumer valid' hl',
      alike.links l hl l' hl' consumer]
  have apart : ∀ l ∈ p.links, l.consumer ≠ n := fun l hl same => isConsumer ⟨l, hl, same⟩
  have apart' : ∀ l ∈ q.links, l.consumer ≠ n := by
    intro l hl same
    obtain ⟨l', hl', eq⟩ := List.mem_map.mp (links ▸ List.mem_map_of_mem hl)
    exact apart l' hl' ((congrArg Prod.snd eq).trans same)
  rw [seeded_other isInput apart, seeded_other (input.symm ▸ isInput) apart']
  by_cases constant : p.plan.Constant n
  · have constant' : q.plan.Constant n := plan ▸ constant
    rw [value?_of_constant constant, value?_of_constant constant', alike.constants n constant]
  · -- What is not written and no constant never holds a value.
    have unwritten : ¬ p.plan.Written n := by
      rintro (same | linked | ⟨e, he, same⟩)
      · exact isInput same
      · obtain ⟨ends, mem, same⟩ := List.mem_map.mp linked
        obtain ⟨l, hl, rfl⟩ := List.mem_map.mp mem
        exact apart l hl same
      · exact free e he same
    rw [vacant n unwritten constant, vacant' n (plan ▸ unwritten) (plan ▸ constant)]

end Procedure

variable [Add α] [Sub α] [Mul α] [Div α] [BEq α]

/-- The calls, begun while nothing was going on, record a build by computing and change no tensor in
place, and the build compiles to the procedure. -/
structure Session.Records (s : Session α) (calls : List (Call α)) (r : Recording α)
    (p : Procedure α) : Prop where
  reached : s.Reached
  idle : s.recorder.isRecording = false
  assisted : ∀ c ∈ calls, c.Assisted
  steady : ∀ c ∈ calls, c.Steady
  current : (s.run calls).recorder.current = some r
  finished : ∃ output, ((s.run calls).recorder.finish output).result = .ok (some p)

namespace Procedure

variable {p q : Procedure α} {i : Index} {x : Tensor α}

/-- The values at the index after a successful replay forward depend on the input, the constants and
what the links supply, and on nothing else. -/
theorem Alike.forward (alike : p.Alike i q) (plan : q.plan = p.plan) (valid : p.plan.Valid)
    (vacant : p.Vacant) (vacant' : q.Vacant) {out : NodeId}
    (h : (p.forward i x).result = .ok out) :
    (q.forward i x).result = .ok out ∧
      ∀ n, (q.forward i x).state.nodes.value? n i = (p.forward i x).state.nodes.value? n i := by
  have order : q.forwardOrder = p.forwardOrder := congrArg Plan.forwardOrder plan
  have output : q.output = p.output := congrArg Plan.output plan
  have stores' : ∀ e ∈ p.forwardOrder, (q.seeded i x).Stores e.result :=
    order ▸ seeded_stores (plan ▸ valid) i x
  obtain ⟨done, rfl⟩ := forward_ok_iff.mp h
  obtain ⟨done', same⟩ := Expression.forwardAll_agree valid.ordered (seeded_stores valid i x) stores'
    (fun n free => alike.seeded plan valid vacant vacant' free) done
  constructor
  · rw [forward_ok_iff, order]
    exact ⟨done', output⟩
  · intro n
    rw [forward_state, forward_state, order]
    exact same n

end Procedure

/-! ### What was computed while recording -/

section Records

variable {s : Session α} {calls : List (Call α)} {r : Recording α} {p q : Procedure α} {i : Index}
  {x : Tensor α}

theorem Session.Records.compiled (records : s.Records calls r p) : Session.Compiled p := by
  obtain ⟨output, finished⟩ := records.finished
  exact ⟨s.run calls, output, reached_run records.reached calls, finished⟩

/-- The procedure has the expressions, the nodes and the input of the build. -/
theorem Session.Records.same (records : s.Records calls r p) :
    p.forwardOrder = r.expressions ∧ p.nodes = r.arena.nodes ∧ p.input = r.inputNode := by
  obtain ⟨output, finished⟩ := records.finished
  obtain ⟨r', node, previous, current, -, -, rfl⟩ := Recorder.finish_ok finished
  cases records.current.symm.trans current
  exact ⟨rfl, rfl, rfl⟩

theorem Session.Records.faithful (records : s.Records calls r p) :
    r.Faithful (s.run calls).tensors (s.Answered calls) :=
  assisted_faithful records.reached records.idle records.assisted records.steady r records.current

/-- The input node was made for the declared input. -/
theorem Session.Records.input (records : s.Records calls r p)
    (held : (s.run calls).tensors[r.input]? = some x) : p.nodes.referenceAt p.input = x := by
  have reached := reached_run records.reached calls
  obtain ⟨last, placed⟩ := reached_placed reached records.current
  have valid := reached_valid reached r records.current
  obtain ⟨-, nodes, input⟩ := records.same
  have found := records.faithful.current r.input 0 placed.declared
  rw [nodes, input, valid.input.1]
  exact Option.some.inj (found.symm.trans held)

/-- Without carried nodes, and with the input and the constants as they were while recording, the
nodes that are no results hold what they were made for. -/
theorem Session.Records.known (records : s.Records calls r p) (plan : q.plan = p.plan)
    (stateless : ∀ n, ¬ p.plan.Carried n) (held : (s.run calls).tensors[r.input]? = some x)
    (constants : ∀ n, p.plan.Constant n → q.nodes.referenceAt n = p.nodes.referenceAt n) :
    Expression.Known q.forwardOrder i (q.seeded i x) p.nodes.referenceAt := by
  have valid : q.plan.Valid := plan ▸ records.compiled.plan_valid
  have input : q.input = p.input := congrArg Plan.input plan
  intro e he a ha free
  by_cases isInput : a = q.input
  · rw [isInput, Procedure.seeded_input valid, input, records.input held]
  · have inside : a < q.plan.nodes.length :=
      lt_trans (valid.ordered.arguments e he a ha) (valid.result_lt he)
    have unlinked : ∀ l ∈ q.links, l.consumer ≠ a := by
      intro l hl
      exact absurd (plan ▸ Procedure.consumer_carried valid hl) (stateless l.consumer)
    rcases valid.leaves a inside isInput free with constant | carried
    · rw [Procedure.seeded_other isInput unlinked, Procedure.value?_of_constant constant,
        constants a (plan ▸ constant)]
    · exact absurd (plan ▸ carried) (stateless a)

/-- Such a replay forward succeeds and gives back the answers of the computations. -/
theorem Session.Records.reproduces (records : s.Records calls r p) (plan : q.plan = p.plan)
    (stateless : ∀ n, ¬ p.plan.Carried n) (held : (s.run calls).tensors[r.input]? = some x)
    (constants : ∀ n, p.plan.Constant n → q.nodes.referenceAt n = p.nodes.referenceAt n) :
    (q.forward i x).result = .ok p.output ∧
      ∀ e ∈ p.forwardOrder, ∃ y, s.Answered calls y ∧ r.arena.find? y.id = some e.result ∧
        (q.forward i x).state.nodes.value? e.result i = some y.tensor := by
  have valid : q.plan.Valid := plan ▸ records.compiled.plan_valid
  have order : q.forwardOrder = p.forwardOrder := congrArg Plan.forwardOrder plan
  have output : q.output = p.output := congrArg Plan.output plan
  obtain ⟨expressions, nodes, -⟩ := records.same
  have solved : Expression.evalAll q.forwardOrder p.nodes.referenceAt =
      .ok p.nodes.referenceAt := by
    rw [order, expressions, nodes]
    exact Expression.evalAll_of_solved records.faithful.solved
  have ordered : Ordered q.forwardOrder := valid.ordered
  obtain ⟨result, final⟩ := Expression.forwardAll_evalAll ordered
    (Procedure.seeded_stores valid i x) (records.known plan stateless held constants)
  constructor
  · rw [Procedure.forward_ok_iff, result, solved]
    exact ⟨rfl, output⟩
  · intro e he
    obtain ⟨y, answered, bound, contents⟩ := records.faithful.results e (expressions ▸ he)
    refine ⟨y, answered, bound, ?_⟩
    rw [Procedure.forward_state, final _ solved e (order ▸ he), nodes, contents]

end Records

variable [Neg α]

/-- When a replay forward succeeds, in whatever state, the input node holds the input and all
equations hold at the index; and any other state of the procedure that is alike in the constants and
in what the links supply comes to the same values. In particular, without carried nodes and with the
input and the constants as they were while the procedure was recorded by computing, it succeeds, and
each result holds the answer of a computation, the one that is bound to it. -/
theorem Procedure.forward_determined {p q : Procedure α} (compiled : Session.Compiled p)
    (reaches : p.Reaches q) (i : Index) (x : Tensor α) :
    (∀ out, (q.forward i x).result = .ok out →
      (q.forward i x).state.nodes.value? p.input i = some x ∧
      (∀ e ∈ p.forwardOrder, e.Holds i (q.forward i x).state.nodes) ∧
      ∀ q', p.Reaches q' → q.Alike i q' → (q'.forward i x).result = .ok out ∧
        ∀ n, (q'.forward i x).state.nodes.value? n i =
          (q.forward i x).state.nodes.value? n i) ∧
    ∀ (s : Session α) (calls : List (Call α)) (r : Recording α), s.Records calls r p →
      (∀ n, ¬ p.plan.Carried n) → (s.run calls).tensors[r.input]? = some x →
      (∀ n, p.plan.Constant n → q.nodes.referenceAt n = p.nodes.referenceAt n) →
        (q.forward i x).result = .ok p.output ∧
          ∀ e ∈ p.forwardOrder, ∃ y, s.Answered calls y ∧ r.arena.find? y.id = some e.result ∧
            (q.forward i x).state.nodes.value? e.result i = some y.tensor := by
  have plan := reaches_plan reaches
  have valid : q.plan.Valid := plan ▸ compiled.plan_valid
  have vacant := reaches_vacant compiled.vacant reaches
  have order : q.forwardOrder = p.forwardOrder := congrArg Plan.forwardOrder plan
  have input : q.input = p.input := congrArg Plan.input plan
  constructor
  · intro out h
    refine ⟨?_, ?_, fun q' reaches' alike => ?_⟩
    · rw [← input]
      exact forward_input valid i x
    · rw [← order]
      exact forward_holds valid h
    · have plan' : q'.plan = q.plan := (reaches_plan reaches').trans plan.symm
      exact alike.forward plan' valid vacant (reaches_vacant compiled.vacant reaches') h
  · intro s calls r records stateless held constants
    exact records.reproduces plan stateless held constants

/-- What the builds of `fanCalls` compile to. -/
def fanProcedure : Procedure Int where
  name := "fan"
  forwardOrder := [⟨0, .arithmetic .add 0 1, 2⟩, ⟨1, .arithmetic .multiply 2 2, 3⟩,
    ⟨2, .arithmetic .add 0 0, 4⟩, ⟨3, .arithmetic .add 3 2, 5⟩]
  backwardOrder := [⟨3, .arithmetic .add 3 2, 5⟩, ⟨1, .arithmetic .multiply 2 2, 3⟩,
    ⟨0, .arithmetic .add 0 1, 2⟩]
  input := 0
  output := 5
  links := []
  nodes :=
    [.create 0 (.fill [2] 1) false 1 (.leaf 0), .create 1 (.fill [2] 2) true 1 (.leaf 0),
      .create 2 (.fill [2] 3) false 1 (.result 0), .create 3 (.fill [2] 9) false 1 (.result 1),
      .create 4 (.fill [2] 2) false 1 (.result 2), .create 5 (.fill [2] 12) false 1 (.result 3)]
  bound := [(9, 5), (0, 0), (1, 1)]

theorem fan_records : ∃ r, (Session.start "fan").Records fanCalls r fanProcedure ∧
    ((Session.start "fan").run fanCalls).tensors[r.input]? = some (.fill [2] 1) :=
  ⟨_, ⟨⟨"fan", [], rfl⟩, rfl, by decide, by decide, rfl, 9, rfl⟩, rfl⟩

theorem fan_stateless (n : NodeId) : ¬ fanProcedure.plan.Carried n := by
  rintro ⟨c, hc, plain, carried⟩
  match n, hc with
  | 0, rfl | 1, rfl | 2, rfl | 3, rfl | 4, rfl | 5, rfl => cases carried

/-- With values of another input left at the index, and the input of a replay that failed on its
shape, the replay forward with the recorded input comes to what it comes to in a fresh procedure and
gives back the answers. -/
theorem fan_determined :
    ∃ q r, Session.Compiled fanProcedure ∧ fanProcedure.Reaches q ∧
      (Session.start "fan").Records fanCalls r fanProcedure ∧
      q.nodes.value? 0 0 = some (.fill [3] 1) ∧ q.nodes.value? 5 0 = some (.fill [2] 90) ∧
      (q.forward 0 (.fill [2] 1)).result = .ok 5 ∧
      (∀ e ∈ fanProcedure.forwardOrder, e.Holds 0 (q.forward 0 (.fill [2] 1)).state.nodes) ∧
      (∀ n, (fanProcedure.forward 0 (.fill [2] 1)).state.nodes.value? n 0 =
        (q.forward 0 (.fill [2] 1)).state.nodes.value? n 0) ∧
      ∀ e ∈ fanProcedure.forwardOrder, ∃ y, (Session.start "fan").Answered fanCalls y ∧
        r.arena.find? y.id = some e.result ∧
        (q.forward 0 (.fill [2] 1)).state.nodes.value? e.result 0 = some y.tensor := by
  obtain ⟨r, records, held⟩ := fan_records
  have reaches : fanProcedure.Reaches
      ((fanProcedure.forward 0 (.fill [2] 7)).state.forward 0 (.fill [3] 1)).state :=
    ⟨[.forward 0 (.fill [2] 7), .forward 0 (.fill [3] 1)], rfl⟩
  obtain ⟨determined, reproduces⟩ :=
    Procedure.forward_determined records.compiled reaches 0 (.fill [2] 1)
  have constants (n : NodeId) := congrFun (Nodes.referenceAt_of_unvalued
    (((fanProcedure.forward 0 (.fill [2] 7)).state.forward_unvalued 0 (.fill [3] 1)).trans
      (fanProcedure.forward_unvalued 0 (.fill [2] 7)))) n
  obtain ⟨ok, answers⟩ := reproduces _ fanCalls r records fan_stateless held fun n _ => constants n
  obtain ⟨-, holds, same⟩ := determined 5 ok
  have alike : Procedure.Alike 0 _ fanProcedure :=
    ⟨fun n _ => (constants n).symm, fun l hl => by cases hl⟩
  exact ⟨_, r, records.compiled, reaches, records, rfl, rfl, ok, holds,
    (same fanProcedure ⟨[], rfl⟩ alike).2, answers⟩

end GradientReplay
