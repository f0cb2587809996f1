import GradientReplay.Proofs.Procedure.Locality
import GradientReplay.Proofs.Procedure.Sight

/-!
What a link remembers.

Whatever is asked of a link and stored in the nodes around it, what it remembers in each direction
is what the latest reading in this direction found since the last reset (`after_lastValue`,
`after_lastGradient`). So a reading makes up for the one miss that follows it, and after a reset for
none. Neither direction notices the other (`after_forwardSide`, `after_backwardSide`). What the link
hands on next follows from this (`remembers`).
-/

namespace GradientReplay

variable {α : Type}

/-! ### Nodes that are given other values or gradients -/

namespace Nodes

def withValues (nodes : Nodes α) (m : NodeId) (values : Series (Tensor α)) : Nodes α :=
  nodes.modify m fun n => { n with values }

def withGradients (nodes : Nodes α) (m : NodeId) (gradients : Series (Tensor α)) : Nodes α :=
  nodes.modify m fun n => { n with gradients }

variable (nodes : Nodes α) (m : NodeId) (s : Series (Tensor α))

theorem ungraded_withValues : (nodes.withValues m s).ungraded = nodes.ungraded.withValues m s := by
  apply map_modify_along
  intro n
  rfl

theorem unvalued_withValues : (nodes.withValues m s).unvalued = nodes.unvalued := by
  apply map_modify
  intro n
  rfl

theorem unvalued_withGradients :
    (nodes.withGradients m s).unvalued = nodes.unvalued.withGradients m s := by
  apply map_modify_along
  intro n
  rfl

theorem ungraded_withGradients : (nodes.withGradients m s).ungraded = nodes.ungraded := by
  apply map_modify
  intro n
  rfl

end Nodes

/-! ### What happens to a link -/

namespace Link

/-- What is asked of a link, and what is stored in the nodes around it. -/
inductive Event (α : Type) where
  | carry (i : Index)
  | giveBack (i : Index)
  | reset
  /-- A node is given other values. -/
  | values (node : NodeId) (values : Series (Tensor α))
  /-- A node is given other gradients. -/
  | gradients (node : NodeId) (gradients : Series (Tensor α))

/-- Does the event have to do with values? -/
def Event.forward : Event α → Bool
  | carry _ | reset | values _ _ => true
  | giveBack _ | gradients _ _ => false

/-- Does the event have to do with gradients? -/
def Event.backward : Event α → Bool
  | giveBack _ | reset | gradients _ _ => true
  | carry _ | values _ _ => false

variable [Zero α] [Add α] [Sub α] [Neg α]

/-- The link and the nodes after an event, whether it succeeds or fails. -/
def step (s : Link α × Nodes α) : Event α → Link α × Nodes α
  | .carry i => s.1.carry i s.2
  | .giveBack i => (s.1.giveBack i s.2).state
  | .reset => (s.1.reset, s.2)
  | .values node values => (s.1, s.2.withValues node values)
  | .gradients node gradients => (s.1, s.2.withGradients node gradients)

/-- The link and the nodes after a history, in which the latest event stands first. -/
def after (s : Link α × Nodes α) : List (Event α) → Link α × Nodes α
  | [] => s
  | e :: earlier => step (after s earlier) e

/-- What the latest carrying over found in the producer, if there was none since a reset nothing. -/
def valueRead (s : Link α × Nodes α) : List (Event α) → Option (Tensor α)
  | [] | .reset :: _ => none
  | .carry i :: earlier => i.previous?.bind ((after s earlier).2.value? s.1.producer)
  | _ :: earlier => valueRead s earlier

/-- What the latest giving back found in the consumer, if there was none since a reset nothing. -/
def gradientRead (s : Link α × Nodes α) : List (Event α) → Option (Tensor α)
  | [] | .reset :: _ => none
  | .giveBack i :: earlier => i.next?.bind ((after s earlier).2.gradient? s.1.consumer)
  | _ :: earlier => gradientRead s earlier

theorem after_ends (s : Link α × Nodes α) (history : List (Event α)) :
    (after s history).1.ends = s.1.ends := by
  induction history with
  | nil => rfl
  | cons e earlier ih =>
      rw [← ih]
      cases e with
      | giveBack i => exact (giveBack_frame _ i _).1
      | _ => rfl

/-! ### What it remembers -/

theorem after_producer (s : Link α × Nodes α) (history : List (Event α)) :
    (after s history).1.producer = s.1.producer := congrArg Prod.fst (after_ends s history)

theorem after_consumer (s : Link α × Nodes α) (history : List (Event α)) :
    (after s history).1.consumer = s.1.consumer := congrArg Prod.snd (after_ends s history)

section Memory

variable {s : Link α × Nodes α} {history : List (Event α)}

theorem after_lastValue (fresh : s.1.lastValue = none) :
    (after s history).1.lastValue = valueRead s history := by
  induction history with
  | nil => exact fresh
  | cons e earlier ih =>
      cases e with
      | carry i =>
          rw [valueRead, ← after_producer s earlier]
          rfl
      | reset => rfl
      | giveBack i =>
          obtain ⟨last, same⟩ := (after s earlier).1.giveBack_link i (after s earlier).2
          rw [after, step, same]
          exact ih
      | values node values => exact ih
      | gradients node gradients => exact ih

theorem after_lastGradient (fresh : s.1.lastGradient = none)
    (below : ∀ i, .giveBack i ∈ history → i ≠ Index.last) :
    (after s history).1.lastGradient = gradientRead s history := by
  induction history with
  | nil => exact fresh
  | cons e earlier ih =>
      have ih := ih fun i hi => below i (List.mem_cons_of_mem e hi)
      cases e with
      | giveBack i =>
          rw [gradientRead, ← after_consumer s earlier, after, step,
            giveBack_link_of_ne (below i List.mem_cons_self)]
      | reset => rfl
      | carry i => exact ih
      | values node values => exact ih
      | gradients node gradients => exact ih

theorem valueRead_after_reset {more : List (Event α)} (none : ∀ i, .carry i ∉ more) :
    valueRead s (more ++ .reset :: history) = .none := by
  induction more with
  | nil => rfl
  | cons e more ih =>
      have ih := ih fun i hi => none i (List.mem_cons_of_mem e hi)
      cases e with
      | carry i => exact absurd List.mem_cons_self (none i)
      | reset => rfl
      | giveBack i => exact ih
      | values node values => exact ih
      | gradients node gradients => exact ih

theorem gradientRead_after_reset {more : List (Event α)} (none : ∀ i, .giveBack i ∉ more) :
    gradientRead s (more ++ .reset :: history) = .none := by
  induction more with
  | nil => rfl
  | cons e more ih =>
      have ih := ih fun i hi => none i (List.mem_cons_of_mem e hi)
      cases e with
      | giveBack i => exact absurd List.mem_cons_self (none i)
      | reset => rfl
      | carry i => exact ih
      | values node values => exact ih
      | gradients node gradients => exact ih

end Memory

/-! ### The two directions -/

omit [Zero α] [Add α] [Sub α] [Neg α] in
theorem ungrade_shows (i : Index) : Node.ShowsValues (Node.ungrade : Node α → Node α) i := by
  refine ⟨fun n => rfl, fun n => rfl, fun n v => ?_⟩
  unfold Node.setValue
  cases constant : n.constant <;> simp [Node.ungrade, constant]

omit [Zero α] [Add α] [Sub α] [Neg α] in
theorem unvalue_shows (i : Index) : Node.ShowsGradients (Node.unvalue : Node α → Node α) i :=
  ⟨fun _ => rfl, fun _ => rfl, fun _ => rfl, fun _ _ => rfl⟩

/-- What there is of a link and its nodes going forward. -/
def forwardSide (s : Link α × Nodes α) : Link α × Nodes α := (s.1.withoutGradient, s.2.ungraded)

/-- What there is of a link and its nodes going back. -/
def backwardSide (s : Link α × Nodes α) : Link α × Nodes α := (s.1.withoutValue, s.2.unvalued)

/-- What is done going forward needs nothing of the other direction. -/
theorem step_forwardSide (s : Link α × Nodes α) {e : Event α} (here : e.forward = true) :
    forwardSide (step s e) = step (forwardSide s) e := by
  cases e with
  | carry i =>
      have seen := carry_view (ungrade_shows i) (fun j _ => ungrade_shows j) s.1.withoutGradient s.2
      exact seen.symm
  | reset => rfl
  | values node values => exact congrArg (Prod.mk _) (s.2.ungraded_withValues node values)
  | giveBack i => cases here
  | gradients node gradients => cases here

/-- Giving back, a link does not use what it remembers of values. -/
theorem giveBack_withoutValue (link : Link α) (i : Index) (nodes : Nodes α) :
    link.withoutValue.giveBack i nodes =
      (link.giveBack i nodes).embed fun s => (s.1.withoutValue, s.2) := by
  unfold giveBack
  cases i.next? with
  | none => rfl
  | some j => rfl

/-- What is done going back needs nothing of the other direction. -/
theorem step_backwardSide (s : Link α × Nodes α) {e : Event α} (here : e.backward = true) :
    backwardSide (step s e) = step (backwardSide s) e := by
  cases e with
  | giveBack i =>
      have seen := giveBack_view (unvalue_shows i) s.1.withoutValue s.2
        (Index.next?_bind_congr fun j _ => Nodes.gradient?_view (unvalue_shows j) s.2 s.1.consumer)
      rw [giveBack_withoutValue s.1 i s.2] at seen
      exact (congrArg Outcome.state seen).symm
  | reset => rfl
  | gradients node gradients =>
      exact congrArg (Prod.mk _) (s.2.unvalued_withGradients node gradients)
  | carry i => cases here
  | values node values => cases here

theorem step_forwardSide_of_not (s : Link α × Nodes α) {e : Event α} (other : e.forward = false) :
    forwardSide (step s e) = forwardSide s := by
  cases e with
  | giveBack i => exact Prod.ext (s.1.giveBack_withoutGradient i s.2) (s.1.giveBack_frame i s.2).2
  | gradients node gradients =>
      exact congrArg (Prod.mk _) (s.2.ungraded_withGradients node gradients)
  | carry i => cases other
  | reset => cases other
  | values node values => cases other

theorem step_backwardSide_of_not (s : Link α × Nodes α) {e : Event α} (other : e.backward = false) :
    backwardSide (step s e) = backwardSide s := by
  cases e with
  | carry i => exact congrArg (Prod.mk _) (Nodes.unvalued_setValue s.2 s.1.consumer i _)
  | values node values => exact congrArg (Prod.mk _) (s.2.unvalued_withValues node values)
  | giveBack i => cases other
  | reset => cases other
  | gradients node gradients => cases other

/-- A view to which only some of the events matter shows a history as these events alone. -/
theorem after_view {view : Link α × Nodes α → Link α × Nodes α} {matters : Event α → Bool}
    (seen : ∀ s e, matters e = true → view (step s e) = step (view s) e)
    (unseen : ∀ s e, matters e = false → view (step s e) = view s) (s : Link α × Nodes α)
    (history : List (Event α)) :
    view (after s history) = after (view s) (history.filter matters) := by
  induction history with
  | nil => rfl
  | cons e earlier ih =>
      cases here : matters e with
      | true => rw [List.filter_cons_of_pos here, after, after, seen _ e here, ih]
      | false => rw [List.filter_cons_of_neg (by simp [here]), after, unseen _ e here, ih]

/-- Going forward all is as if nothing had been done in the other direction. -/
theorem after_forwardSide (s : Link α × Nodes α) (history : List (Event α)) :
    forwardSide (after s history) = forwardSide (after s (history.filter Event.forward)) := by
  have view := after_view (fun s _ => step_forwardSide s) (fun s _ => step_forwardSide_of_not s) s
  simp only [view, List.filter_filter, Bool.and_self]

/-- Going back all is as if nothing had been done in the other direction. -/
theorem after_backwardSide (s : Link α × Nodes α) (history : List (Event α)) :
    backwardSide (after s history) = backwardSide (after s (history.filter Event.backward)) := by
  have view := after_view (fun s _ => step_backwardSide s) (fun s _ => step_backwardSide_of_not s) s
  simp only [view, List.filter_filter, Bool.and_self]

/-! ### What it hands on -/

/-- At an index the link stores this value in its consumer, and nothing else. -/
def Carries (link : Link α) (nodes : Nodes α) (i : Index) (value : Tensor α) : Prop :=
  (link.carry i nodes).2 = nodes.setValue link.consumer i value

/-- At an index the link makes this contribution to the gradient of its producer, which succeeds or
fails as any contribution does. -/
def GivesBack (link : Link α) (nodes : Nodes α) (i : Index) (gradient : Tensor α) : Prop :=
  (link.giveBack i nodes).embed Prod.snd =
    .ofExcept nodes (nodes.accumulate link.producer i .plus gradient)

omit [Add α] [Sub α] [Neg α] in
theorem carries_supply (link : Link α) (nodes : Nodes α) (i : Index) :
    link.Carries nodes i (supply (i.previous?.bind (nodes.value? link.producer)) link.lastValue
      (shapeOf nodes link.producer)) := rfl

theorem givesBack_supply (link : Link α) (nodes : Nodes α) {i : Index} (below : i ≠ Index.last) :
    link.GivesBack nodes i (supply (i.next?.bind (nodes.gradient? link.consumer)) link.lastGradient
      (shapeOf nodes link.consumer)) := by
  rw [GivesBack, giveBack_of_ne below]
  rfl

omit [Add α] [Sub α] [Neg α] in
/-- What a link stores in a node that is no constant can be read there. -/
theorem Carries.value? {link : Link α} {nodes : Nodes α} {i : Index} {v : Tensor α}
    (carries : link.Carries nodes i v) (stores : nodes.Stores link.consumer) :
    (link.carry i nodes).2.value? link.consumer i = some v := by
  obtain ⟨c, hc, plain⟩ := stores
  rw [carries, Nodes.value?_setValue_self hc plain]

variable [Mul α] [Div α] [BEq α] {p q : Procedure α}

/-- The links of a compiled procedure lead from one node to another, which is no constant. -/
theorem compiled_ends (compiled : Session.Compiled p) (reaches : p.Reaches q) {l : Link α}
    (hl : l ∈ q.links) : l.producer ≠ l.consumer ∧ q.nodes.Stores l.consumer := by
  have valid : q.plan.Valid := Procedure.reaches_plan reaches ▸ compiled.plan_valid
  have computed := Procedure.producer_computed valid hl
  have carried := Procedure.consumer_carried valid hl
  refine ⟨fun same => computed.not_carried (same ▸ carried), Nodes.stores_iff.mpr ?_⟩
  obtain ⟨c, hc, plain, -⟩ := carried
  exact ⟨c, hc, plain⟩

/-- What a link hands on, after any history of calls in both directions, of resets and of changes in
the nodes: what it reads at the index before, or after; else what the latest call in this direction
read, if it found something and there was no reset since; else zeros. No direction notices what is
done in the other, and after a reset, of the link or of all links of a procedure, a call that finds
nothing hands on zeros. -/
theorem remembers (producer consumer : NodeId) (nodes : Nodes α) {history : List (Event α)}
    (below : ∀ i, .giveBack i ∈ history → i ≠ Index.last) :
    let s := (create producer consumer, nodes)
    let link := (after s history).1
    let now := (after s history).2
    (∀ i,
      let value := ((i.previous?.bind (now.value? producer)) <|> valueRead s history).getD
        (.zeros (shapeOf now producer))
      link.Carries now i value ∧
        (now.Stores consumer → (link.carry i now).2.value? consumer i = some value)) ∧
      (∀ i ≠ Index.last,
        link.GivesBack now i
          (((i.next?.bind (now.gradient? consumer)) <|> gradientRead s history).getD
            (.zeros (shapeOf now consumer)))) ∧
      forwardSide (after s history) = forwardSide (after s (history.filter Event.forward)) ∧
      backwardSide (after s history) = backwardSide (after s (history.filter Event.backward)) ∧
      (∀ more, (∀ i, .carry i ∉ more) →
        let t := after s (more ++ .reset :: history)
        ∀ i, i.previous?.bind (t.2.value? producer) = none →
          t.1.Carries t.2 i (.zeros (shapeOf t.2 producer))) ∧
      (∀ more, (∀ i, .giveBack i ∉ more) →
        let t := after s (more ++ .reset :: history)
        ∀ i ≠ Index.last, i.next?.bind (t.2.gradient? consumer) = none →
          t.1.GivesBack t.2 i (.zeros (shapeOf t.2 consumer))) ∧
      (∀ p : Procedure α, ∀ l ∈ p.resetLinks.links, ∀ i nodes,
        (i.previous?.bind (nodes.value? l.producer) = none →
          l.Carries nodes i (.zeros (shapeOf nodes l.producer))) ∧
          (i ≠ Index.last → i.next?.bind (nodes.gradient? l.consumer) = none →
            l.GivesBack nodes i (.zeros (shapeOf nodes l.consumer)))) ∧
      ∀ p q : Procedure α, Session.Compiled p → p.Reaches q → ∀ l ∈ q.links,
        l.producer ≠ l.consumer ∧ q.nodes.Stores l.consumer := by
  intro s link now
  have carries (history : List (Event α)) (i : Index) :
      (after s history).1.Carries (after s history).2 i
        (supply (i.previous?.bind ((after s history).2.value? producer)) (valueRead s history)
          (shapeOf (after s history).2 producer)) := by
    have given := carries_supply (after s history).1 (after s history).2 i
    rwa [after_lastValue rfl, after_producer] at given
  have givesBack {history : List (Event α)} (below : ∀ i, .giveBack i ∈ history → i ≠ Index.last)
      {i : Index} (inside : i ≠ Index.last) :
      (after s history).1.GivesBack (after s history).2 i
        (supply (i.next?.bind ((after s history).2.gradient? consumer)) (gradientRead s history)
          (shapeOf (after s history).2 consumer)) := by
    have given := givesBack_supply (after s history).1 (after s history).2 inside
    rwa [after_lastGradient rfl below, after_consumer] at given
  refine ⟨fun i => ⟨carries history i, fun stores => ?_⟩, fun i inside => givesBack below inside,
    after_forwardSide s history, after_backwardSide s history, fun more none => ?_,
    fun more none => ?_, fun p l hl i nodes => ?_, fun p q compiled reaches l hl =>
      compiled_ends compiled reaches hl⟩
  · have stored := (carries history i).value?
    rw [after_consumer] at stored
    exact stored stores
  · intro t i miss
    have given := carries (more ++ .reset :: history) i
    rwa [miss, valueRead_after_reset none] at given
  · intro t i inside miss
    have below' : ∀ i, .giveBack i ∈ more ++ .reset :: history → i ≠ Index.last := by
      intro i hi
      rcases List.mem_append.mp hi with hi | hi
      · exact absurd hi (none i)
      · rcases List.mem_cons.mp hi with same | hi
        · cases same
        · exact below i hi
    have given := givesBack below' inside
    rwa [miss, gradientRead_after_reset none] at given
  · obtain ⟨l', -, rfl⟩ := List.mem_map.mp hl
    constructor
    · intro miss
      have given := carries_supply l'.reset nodes i
      rwa [miss] at given
    · intro inside miss
      have given := givesBack_supply l'.reset nodes inside
      rwa [miss] at given

/-- A result, and the node that carries it over. -/
def carriedNodes : Nodes Int :=
  [.create 0 (.fill [2] 0) false 1 (.result 1), .create 1 (.fill [2] 0) false 0 (.carried 1)]

/-- The producer is given a value at 0, which is carried over to 1; then something is given back. -/
def carriedHistory : List (Event Int) :=
  [.giveBack 3, .carry 1, .values 0 (.ofList [(0, .fill [2] 7)])]

/-- The value read for 1 makes up for the miss at 5, but not for another one at 9. -/
theorem carried_remembers :
    let s := (create 0 1, carriedNodes)
    let first := after s carriedHistory
    let second := after s (.carry 5 :: carriedHistory)
    (∀ i, .giveBack i ∈ Event.carry 5 :: carriedHistory → i ≠ Index.last) ∧
      valueRead s carriedHistory = some (.fill [2] 7) ∧ first.2.value? 0 4 = none ∧
      (first.1.carry 5 first.2).2.value? 1 5 = some (.fill [2] 7) ∧ second.2.value? 0 8 = none ∧
      (second.1.carry 9 second.2).2.value? 1 9 = some (.fill [2] 0) := by
  intro s first second
  have below : ∀ i, .giveBack i ∈ Event.carry 5 :: carriedHistory → i ≠ Index.last := by
    intro i hi
    simp only [carriedHistory, List.mem_cons, List.not_mem_nil, or_false, reduceCtorEq, false_or,
      Event.giveBack.injEq] at hi
    subst hi
    decide
  obtain ⟨one, -⟩ := remembers 0 1 carriedNodes fun i hi => below i (List.mem_cons_of_mem _ hi)
  obtain ⟨two, -⟩ := remembers 0 1 carriedNodes below
  have storesFirst : first.2.Stores 1 := ⟨_, rfl, rfl⟩
  have storesSecond : second.2.Stores 1 := ⟨_, rfl, rfl⟩
  exact ⟨below, rfl, rfl, (one 5).2 storesFirst, rfl, (two 9).2 storesSecond⟩

end Link

end GradientReplay
