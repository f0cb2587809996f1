import GradientReplay.Proofs.Procedure.Memory
import GradientReplay.Proofs.Procedure.Missing
import GradientReplay.Proofs.Series.Parts

/-!
Which other indices a replay reads.

A replay forward reads what is stored at its index and at the one before it, and a replay back what
is stored at its index and at the one after it (`forward_within`, `backward_within`). At the first
index, which has none before it, a link goes without a reading and the replay answers. At the last
index a link overflows instead: a replay back answers there exactly if there is no link, and at every
other index always (`backward_overflow_iff`, `backward_answers_iff`).
-/

namespace GradientReplay

variable {α : Type}

/-! ### Some of the indices -/

namespace Index

/-- The index itself, and the one before it if there is one. -/
def upTo (i j : Index) : Bool := j = i ∨ j.toNat + 1 = i.toNat

/-- The index itself, and the one after it if there is one. -/
def onward (i j : Index) : Bool := j = i ∨ i.toNat + 1 = j.toNat

theorem upTo_self (i : Index) : i.upTo i = true := by simp [upTo]

theorem upTo_previous {i j : Index} (previous : i.previous? = some j) : i.upTo j = true := by
  simp [upTo, previous?_eq_some.mp previous]

theorem onward_self (i : Index) : i.onward i = true := by simp [onward]

theorem onward_next {i j : Index} (next : i.next? = some j) : i.onward j = true := by
  simp [onward, next?_eq_some.mp next]

end Index

namespace Node

/-- The node with nothing but what it holds at some of the indices; a constant keeps its shared
value. -/
def within (keep : Index → Bool) (n : Node α) : Node α :=
  { n with values := n.values.restrict keep, gradients := n.gradients.restrict keep }

variable {keep : Index → Bool} {i : Index}

theorem within_showsValues (kept : keep i = true) :
    Node.ShowsValues (within keep : Node α → Node α) i := by
  refine ⟨fun n => rfl, fun n => ?_, fun n v => ?_⟩
  · simp [within, value?, kept]
  · cases constant : n.constant <;>
      simp [within, setValue, constant, Series.restrict_insert kept]

theorem within_upTo_showsValues (i j : Index) (previous : i.previous? = some j) :
    Node.ShowsValues (within i.upTo : Node α → Node α) j :=
  within_showsValues (Index.upTo_previous previous)

theorem within_showsGradients (kept : keep i = true) :
    Node.ShowsGradients (within keep : Node α → Node α) i := by
  refine ⟨fun n => rfl, fun n => rfl, fun n => ?_, fun n g => ?_⟩
  · simp [within, gradient?, kept]
  · simp [within, setGradient, Series.restrict_insert kept]

end Node

/-- Through the view of an index and the next one, the next one looks as without it. -/
theorem Nodes.next_within (i : Index) (nodes : Nodes α) (m : NodeId) :
    i.next?.bind (Nodes.gradient? (nodes.map (Node.within i.onward)) m) =
      i.next?.bind (nodes.gradient? m) := by
  cases next : i.next? with
  | none => rfl
  | some j =>
      exact Nodes.gradient?_view (Node.within_showsGradients (Index.onward_next next)) nodes m

/-! ### Links -/

namespace Link

variable [Zero α] [Add α] [Sub α] [Neg α]

theorem giveBack_overflow_iff {link : Link α} {i : Index} {nodes : Nodes α} :
    (link.giveBack i nodes).result = .error .indexOverflow ↔ i = .last := by
  constructor
  · intro overflow
    by_contra below
    rw [giveBack_of_ne below] at overflow
    obtain ⟨cause, impossible⟩ := Nodes.accumulate_error (Outcome.ofExcept_error.mp overflow)
    cases impossible
  · rintro rfl
    rw [giveBack_last]

/-- Exactly off the last index a link hands on what it reads at the next one, or what stands in for
it. -/
theorem givesBack_handed_iff (link : Link α) (i : Index) (nodes : Nodes α) :
    link.GivesBack nodes i (link.handed i nodes) ↔ i ≠ .last := by
  constructor
  · intro gives top
    have overflow : ((link.giveBack i nodes).embed Prod.snd).result = .error .indexOverflow :=
      giveBack_overflow_iff.mpr top
    rw [gives] at overflow
    obtain ⟨cause, impossible⟩ := Nodes.accumulate_error (Outcome.ofExcept_error.mp overflow)
    cases impossible
  · exact link.givesBack_supply nodes

end Link

/-! ### Procedures -/

/-- The call answers, with this node or with an error; it is not broken off. -/
def Answers (result : Except ReplayError NodeId) (node : NodeId) : Prop :=
  result = .ok node ∨ ∃ e : ReplayError, e.answered = true ∧ result = .error e

namespace Procedure

variable [Zero α] [Add α] [Sub α] [Mul α] [Div α] [BEq α]

/-- The procedure with nothing but what its nodes hold at some of the indices. -/
abbrev within (keep : Index → Bool) (p : Procedure α) : Procedure α := p.seen (Node.within keep)

/-- A replay forward needs what is stored at its index and at the one before it, and nothing
else. -/
theorem forward_within (p : Procedure α) (i : Index) (x : Tensor α) :
    (p.within i.upTo).forward i x = (p.forward i x).embed (within i.upTo) := by
  have values : Node.ShowsValues (Node.within i.upTo : Node α → Node α) i :=
    Node.within_showsValues i.upTo_self
  exact p.forward_view values
    (Link.carryAll_view values (Node.within_upTo_showsValues i) p.links p.nodes) x

theorem forward_answers (p : Procedure α) (i : Index) (x : Tensor α) :
    Answers (p.forward i x).result p.output := by
  rw [forward_result]
  cases run : (Expression.forwardAll i p.forwardOrder (p.seeded i x)).result with
  | ok b => exact .inl rfl
  | error cause =>
      obtain ⟨before, e, after, -, -, failed⟩ := Outcome.each_error.mp run
      refine .inr ⟨cause, ?_, rfl⟩
      rcases bind_error_iff.mp (Outcome.ofExcept_error.mp failed) with failed | ⟨v, -, impossible⟩
      · rcases Expression.evaluate_error failed with ⟨c, rfl⟩ | ⟨a, -, -, rfl⟩
        · rfl
        · rfl
      · cases impossible

variable [Neg α]

/-- A replay back needs what is stored at its index and at the one after it, and nothing else. -/
theorem backward_within (p : Procedure α) (i : Index) (g : Tensor α) :
    (p.within i.onward).backward i g = (p.backward i g).embed (within i.onward) := by
  have gradients : Node.ShowsGradients (Node.within i.onward : Node α → Node α) i :=
    Node.within_showsGradients i.onward_self
  exact p.backward_view (Node.within_showsValues i.onward_self) gradients g
    (Link.giveBackAll_view gradients (Nodes.next_within i) p.links _)

/-- A replay back overflows exactly at the last index, and only where there are links. -/
theorem backward_overflow_iff {p : Procedure α} {i : Index} {g : Tensor α} :
    (p.backward i g).result = .error .indexOverflow ↔ i = .last ∧ p.links ≠ [] := by
  constructor
  · intro overflow
    cases given : (p.given i g).result with
    | error e =>
        rw [backward_of_not_given given] at overflow
        cases overflow
        exact Link.giveBackAll_overflow_iff.mp given
    | ok b =>
        -- The rules of the expressions stay at the index.
        obtain ⟨before, e, after, -, -, failed⟩ := (backward_error_of_given given).mp overflow
        cases Expression.backward_answered _ failed
  · intro top
    rw [backward_of_not_given (Link.giveBackAll_overflow_iff.mpr top)]

theorem backward_answers_iff {p : Procedure α} {i : Index} {g : Tensor α} :
    Answers (p.backward i g).result p.input ↔ (i = .last → p.links = []) := by
  constructor
  · intro answers top
    by_contra some
    rw [backward_overflow_iff.mpr ⟨top, some⟩] at answers
    rcases answers with impossible | ⟨e, answered, same⟩
    · cases impossible
    · cases same
      cases answered
  · intro none
    cases result : (p.backward i g).result with
    | ok n =>
        obtain ⟨given, swept⟩ := backward_ok result
        rw [(backward_of_given given).2, swept] at result
        exact .inl result.symm
    | error e =>
        refine .inr ⟨e, ?_, rfl⟩
        apply ReplayError.answered_of_ne
        rintro rfl
        obtain ⟨top, some⟩ := backward_overflow_iff.mp result
        exact some (none top)

/-- Going forward, a link reads at an index the one before it and no other; at 0 it finds nothing.
Going back it reads the one after it and no other; exactly at the last index it overflows, where it
would have to find nothing. The replays of a procedure need nothing else either. A replay forward
answers at every index. A replay back answers at every index but the last one, where it answers if
there is no link and overflows if there is one. -/
theorem neighbours (p : Procedure α) (i : Index) :
    (∀ j, (i.previous? = some j ↔ j.toNat + 1 = i.toNat) ∧
        (i.next? = some j ↔ i.toNat + 1 = j.toNat)) ∧
      (∀ (link : Link α) (nodes : Nodes α),
        link.Carries nodes i (link.supplied i nodes) ∧
          (link.carry i nodes).1.lastValue = i.previous?.bind (nodes.value? link.producer) ∧
          link.carry i (nodes.map (Node.within i.upTo)) =
            ((link.carry i nodes).1, (link.carry i nodes).2.map (Node.within i.upTo)) ∧
          (link.GivesBack nodes i (link.handed i nodes) ↔ i ≠ .last) ∧
          (i ≠ .last → (link.giveBack i nodes).state.1.lastGradient =
            i.next?.bind (nodes.gradient? link.consumer)) ∧
          link.giveBack i (nodes.map (Node.within i.onward)) =
            (link.giveBack i nodes).embed (fun s => (s.1, s.2.map (Node.within i.onward))) ∧
          ((link.giveBack i nodes).result = .error .indexOverflow ↔ i = .last)) ∧
      (∀ x, (p.within i.upTo).forward i x = (p.forward i x).embed (within i.upTo)) ∧
      (∀ g, (p.within i.onward).backward i g = (p.backward i g).embed (within i.onward)) ∧
      (∀ x, Answers (p.forward i x).result p.output) ∧
      ∀ g, (Answers (p.backward i g).result p.input ↔ (i = .last → p.links = [])) ∧
        ((p.backward i g).result = .error .indexOverflow ↔ i = .last ∧ p.links ≠ []) := by
  refine ⟨fun j => ⟨Index.previous?_eq_some, Index.next?_eq_some⟩, fun link nodes => ?_,
    p.forward_within i, p.backward_within i, p.forward_answers i, fun g =>
      ⟨backward_answers_iff, backward_overflow_iff⟩⟩
  have carried := Link.carry_view (Node.within_showsValues i.upTo_self)
    (Node.within_upTo_showsValues i) link nodes
  have given := Link.giveBack_view (Node.within_showsGradients i.onward_self) link nodes
    (Nodes.next_within i nodes link.consumer)
  have read (below : i ≠ .last) : (link.giveBack i nodes).state.1.lastGradient =
      i.next?.bind (nodes.gradient? link.consumer) :=
    congrArg Link.lastGradient (link.giveBack_link_of_ne below nodes)
  exact ⟨link.carries_supply nodes i, rfl, carried, link.givesBack_handed_iff i nodes, read, given,
    Link.giveBack_overflow_iff⟩

/-- Two builds of `s = s + x`, the second not ended yet. -/
def totalSession : Session Int :=
  (Session.start "total").run
    [.hold (.fill [1] 3), .hold (.fill [1] 0), .begin 0, .compute (.arithmetic .add 1 0), .finish 2,
      .begin 0, .compute (.arithmetic .add 2 0)]

/-- Going back at the last index breaks off where the link asks for the index after it: the output
has its gradient by then, and the input gets none. -/
theorem total_overflows :
    ∃ p : Procedure Int, Session.Compiled p ∧
      let q := (p.backward 0 (.fill [1] 5)).state
      let r := q.backward .last (.fill [1] 1)
      r.result = .error .indexOverflow ∧ ¬ Answers r.result q.input ∧
        r.state.nodes.gradient? q.output .last = some (.fill [1] 1) ∧
        r.state.nodes.gradient? q.input .last = none := by
  refine ⟨_, ⟨totalSession, 3, ⟨"total", _, rfl⟩, rfl⟩, rfl, ?_, rfl, rfl⟩
  rintro (impossible | ⟨e, answered, same⟩)
  · cases impossible
  · cases same
    cases answered

/-- After a replay back at 1, one at 0 answers, and its links have read the gradients at 1. One at
the last index does not answer. -/
theorem pair_reads :
    let q := (pairProcedure.backward 1 (.fill [1] 5)).state
    Session.Compiled pairProcedure ∧ (0 : Index) ≠ .last ∧
      (∀ link ∈ q.links,
        (link.giveBack 0 q.nodes).state.1.lastGradient = some (.fill [1] 5)) ∧
      Answers (q.backward 0 (.fill [1] 1)).result q.input ∧
      ¬ Answers (q.backward .last (.fill [1] 1)).result q.input := by
  intro q
  have inside : (0 : Index) ≠ .last := by decide
  obtain ⟨-, links, -, -, -, back⟩ := neighbours q 0
  obtain ⟨-, -, -, -, -, top⟩ := neighbours q .last
  refine ⟨pair_compiled, inside, fun link hl => ?_, ?_, fun answers => ?_⟩
  · obtain ⟨-, -, -, -, read, -⟩ := links link q.nodes
    rw [read inside]
    rcases hl with _ | ⟨_, _ | ⟨_, ⟨⟩⟩⟩
    · rfl
    · rfl
  · exact (back _).1.mpr fun top => absurd top inside
  · cases (top _).1.mp answers rfl

end Procedure

end GradientReplay
