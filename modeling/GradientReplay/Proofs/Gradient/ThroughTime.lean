import GradientReplay.Proofs.Gradient.Step
import GradientReplay.Proofs.Gradient.Sum
import GradientReplay.Proofs.Procedure.Sequence
import Mathlib.Algebra.Field.Rat

/-!
Going back through time is exact.

Over a sequence the tangent of a carried node is that of the producer of its link at the index
before (`Plan.tangentsAt`). Going back, what the consumers hold at an index is what the links hand
to their producers at the index before (`Pending.handed_pair`), since a node holds a gradient at all
indices that were gone back at or at none (`backward_isSome_iff_reached`). So each replay back
exchanges the gradient of the output, and what crosses over to it, for the gradients of the input
and of the constants, and what crosses over from it (`Pending.balance`). Over the sequence what
crosses over cancels (`collect_balance`), and the sums of the gradients of the constants come out
(`sequence_exact`).
-/

namespace GradientReplay

open Finset

variable {α : Type}

namespace Plan

/-! ### Tangents over a sequence -/

section Tangents

variable [Field α] (P : Plan α) (value : Nat → NodeId → Tensor α) (κ : NodeId → Tangent α)
  (δ : Nat → Tangent α)

/-- The tangents to begin with at an index, from the tangents at the index before. -/
def seedsAfter (before : NodeId → Tangent α) (t : Nat) : NodeId → Tangent α :=
  P.seeds κ (δ t) (P.links.map fun l => (l.2, before l.1))

/-- The tangents of all nodes at an index of a sequence; before the first index there are none. -/
def tangentsAt : Nat → NodeId → Tangent α
  | 0 => Expression.tangents (value 0) (P.seedsAfter κ δ 0 0) P.forwardOrder
  | t + 1 =>
      Expression.tangents (value (t + 1)) (P.seedsAfter κ δ (tangentsAt t) (t + 1)) P.forwardOrder

/-- The tangents of all nodes at the index before. -/
def tangentsBefore : Nat → NodeId → Tangent α
  | 0 => 0
  | t + 1 => P.tangentsAt value κ δ t

theorem tangentsAt_eq (t : Nat) :
    P.tangentsAt value κ δ t =
      Expression.tangents (value t) (P.seedsAfter κ δ (P.tangentsBefore value κ δ t) t)
        P.forwardOrder := by
  cases t <;> rfl

variable {P κ δ}

theorem Valid.seedsAfter_of_result (valid : P.Valid) (before : NodeId → Tangent α) (t : Nat)
    {e : Expression α} (he : e ∈ P.forwardOrder) : P.seedsAfter κ δ before t e.result = 0 := by
  apply valid.seeds_of_result _ he
  intro c hc
  obtain ⟨l, hl, rfl⟩ := List.mem_map.mp hc
  exact valid.consumers l hl

/-- The inner products of the gradients that the consumers have at an index, with the tangents that
their producers have at the index before. -/
def crossing (P : Plan α) (nodes : Nodes α) (i : Index) (before : NodeId → Tangent α) : α :=
  (P.links.map fun l => nodes.pairing i l.2 (before l.1)).sum

theorem crossing_zero (P : Plan α) (nodes : Nodes α) (i : Index) : P.crossing nodes i 0 = 0 := by
  apply List.sum_eq_zero
  intro y hy
  obtain ⟨l, -, rfl⟩ := List.mem_map.mp hy
  exact nodes.pairing_zero i l.2

theorem crossing_of_fresh (P : Plan α) {nodes : Nodes α} {i : Index}
    (fresh : ∀ n, nodes.gradient? n i = none) (before : NodeId → Tangent α) :
    P.crossing nodes i before = 0 := by
  apply List.sum_eq_zero
  intro y hy
  obtain ⟨l, -, rfl⟩ := List.mem_map.mp hy
  exact Nodes.pairing_of_none (fresh l.2) _

/-- The total under the tangents to begin with, node by node. -/
theorem Valid.total_seedsAfter (valid : P.Valid) {nodes : Nodes α}
    (length : nodes.length = P.nodes.length) (i : Index) (before : NodeId → Tangent α) (t : Nat) :
    nodes.total i (P.seedsAfter κ δ before t) =
      nodes.pairing i P.input (δ t) + ∑ n ∈ P.constants, nodes.pairing i n (κ n) +
        P.crossing nodes i before := by
  have states : ∀ c ∈ P.links.map fun l => (l.2, before l.1), P.Carried c.1 := by
    intro c hc
    obtain ⟨l, hl, rfl⟩ := List.mem_map.mp hc
    exact valid.consumers l hl
  have distinct : ((P.links.map fun l => (l.2, before l.1)).map Prod.fst).Nodup := by
    rw [List.map_map]
    exact valid.distinct
  rw [seedsAfter, valid.total_seeds length i κ (δ t) _ states distinct, crossing, List.map_map]
  rfl

end Tangents

/-! ### Where gradients come to -/

/-- A replay back at a fresh index leaves a gradient in the node: it is the output, the producer of
a link, or a receiver of some expression of the backward order. -/
def Reached (P : Plan α) (n : NodeId) : Prop :=
  n = P.output ∨
    ((∃ l ∈ P.links, l.1 = n) ∨ ∃ e ∈ P.backwardOrder, n ∈ e.term.receivers) ∧
      n < P.nodes.length

end Plan

/-- The values of all nodes over a sequence. -/
def Nodes.history [Zero α] (nodes : Nodes α) (t : Nat) : NodeId → Tensor α :=
  nodes.valueAt t.toUInt64

theorem Nodes.history_of_ungraded [Zero α] {nodes nodes' : Nodes α}
    (same : nodes'.ungraded = nodes.ungraded) : nodes'.history = nodes.history := by
  funext t
  exact Nodes.valueAt_of_ungraded same t.toUInt64

namespace Procedure

theorem takes_iff_lt {nodes : Nodes α} (isOpen : nodes.Open) (n : NodeId) :
    nodes.Takes n ↔ n < nodes.length := by
  constructor
  · rintro ⟨c, hc, -⟩
    exact (List.getElem?_eq_some_iff.mp hc).1
  · intro inside
    exact ⟨_, List.getElem?_eq_getElem inside, isOpen _ (List.getElem_mem inside)⟩

/-- The nodes that hold gradients after a replay back at a fresh index are the same at all
indices. -/
theorem backward_isSome_iff_reached [Zero α] [Add α] [Sub α] [Mul α] [Div α] [Neg α] [BEq α]
    {p : Procedure α} (valid : p.plan.Valid) (isOpen : p.nodes.Open) {i : Index}
    (fresh : ∀ n, p.nodes.gradient? n i = none) {g : Tensor α} {out : NodeId}
    (ok : (p.backward i g).result = .ok out) (n : NodeId) :
    ((p.backward i g).state.nodes.gradient? n i).isSome ↔ p.plan.Reached n := by
  rw [backward_isSome valid ok, Fed, Plan.Reached, fresh n, takes_iff_lt isOpen,
    plan_nodes_length]
  simp only [Option.isSome_none, Bool.false_eq_true, false_or, plan, List.mem_map, Link.ends,
    exists_exists_and_eq_and]

/-! ### One index -/

/-- What going back over a sequence of `n` indices starts from: a plan, nodes with the values of all
these indices, and gradients of the output. -/
structure Unrolled [Field α] [BEq α] (P : Plan α) (base : Nodes α) (n : Nat) (g : Nat → Tensor α) :
    Prop where
  valid : P.Valid
  isOpen : base.Open
  /-- The ends of a link have one shape. -/
  uniform : ∀ l ∈ P.links, P.shapeOf l.1 = P.shapeOf l.2
  /-- The backward order gives the producers of the links. -/
  swept : ∀ l ∈ P.links, ∃ e ∈ P.backwardOrder, e.result = l.1
  ascending : ∀ t u, t < u → u < n → t.toUInt64 < u.toUInt64
  holds : ∀ t < n, ∀ e ∈ P.forwardOrder, e.Holds t.toUInt64 base
  fits : ∀ t < n, base.Fits t.toUInt64
  outputs : ∀ t < n, (g t).shape = P.shapeOf P.output

/-- The indices of the sequence differ. -/
theorem Unrolled.index_ne [Field α] [BEq α] {P : Plan α} {base : Nodes α} {n : Nat}
    {g : Nat → Tensor α} (unrolled : Unrolled P base n g) {t u : Nat} (before : t < u)
    (inside : u < n) : t.toUInt64 ≠ u.toUInt64 := by
  intro same
  have less := unrolled.ascending t u before inside
  rw [same] at less
  exact UInt64.lt_irrefl _ less

/-- The indices from `k` on were gone back at, and those before were not. -/
structure Pending [Zero α] (P : Plan α) (base : Nodes α) (k : Nat) (r : Procedure α) : Prop where
  plan : r.plan = P
  ungraded : r.nodes.ungraded = base.ungraded
  graded : ∀ i, r.nodes.Graded i
  fresh : ∀ t < k, ∀ n, r.nodes.gradient? n t.toUInt64 = none
  reached : ∀ n, (r.nodes.gradient? n k.toUInt64).isSome → P.Reached n
  /-- A link remembers no gradient where its consumer has none. -/
  unread : ∀ l ∈ r.links, r.nodes.gradient? l.consumer k.toUInt64 = none → l.lastGradient = none

section Index

variable [Field α] [BEq α] {P : Plan α} {base : Nodes α} {n k : Nat} {g : Nat → Tensor α}
  {r : Procedure α} {out : NodeId}

omit [BEq α] in
theorem Pending.shapeOf (pending : Pending P base k r) (m : NodeId) :
    Link.shapeOf r.nodes m = P.shapeOf m := by
  rw [← plan_shapeOf, pending.plan]

/-- The index before those that were gone back at is ready. -/
theorem Pending.ready (unrolled : Unrolled P base n g) (inside : k < n)
    (pending : Pending P base (k + 1) r) : r.Ready k.toUInt64 where
  holds := by
    intro e he
    have he' : e ∈ P.forwardOrder := pending.plan ▸ he
    exact (unrolled.holds k inside e he').of_ungraded pending.ungraded
  fits := (unrolled.fits k inside).of_ungraded pending.ungraded
  isOpen := (Nodes.open_of_ungraded pending.ungraded).mpr unrolled.isOpen
  fresh := pending.fresh k k.lt_succ_self

/-- What a link hands on is the gradient of its consumer at the index after, if there is one, and
zeros if there is none. -/
theorem Pending.handed_pair (unrolled : Unrolled P base n g) (pending : Pending P base (k + 1) r)
    (ok : (r.backward k.toUInt64 (g k)).result = .ok out) {l : Link α} (hl : l ∈ r.links) :
    (l.handed k.toUInt64 r.nodes).shape.Alike (Link.shapeOf r.nodes l.producer) ∧
      ∀ σ, (l.handed k.toUInt64 r.nodes).pair σ =
        r.nodes.pairing (k + 1).toUInt64 l.consumer σ := by
  have ends : l.ends ∈ P.links := by
    rw [← pending.plan]
    exact List.mem_map_of_mem hl
  have uniform : Link.shapeOf r.nodes l.producer = Link.shapeOf r.nodes l.consumer := by
    rw [pending.shapeOf, pending.shapeOf]
    exact unrolled.uniform l.ends ends
  rw [Link.handed, Index.next?_toUInt64 (given_below (backward_ok ok).1 hl), Option.bind_some,
    uniform]
  cases found : r.nodes.gradient? l.consumer (k + 1).toUInt64 with
  | some γ =>
      constructor
      · exact pending.graded _ l.consumer γ found
      · intro σ
        exact (Nodes.pairing_of_some found σ).symm
  | none =>
      rw [pending.unread l hl found]
      constructor
      · exact .refl _
      · intro σ
        rw [Nodes.pairing_of_none found]
        exact Tensor.pair_zeros _ σ

/-- What the links hand on is what crosses over from the index after. -/
theorem Pending.handed_sum (unrolled : Unrolled P base n g) (pending : Pending P base (k + 1) r)
    (ok : (r.backward k.toUInt64 (g k)).result = .ok out) (τ : NodeId → Tangent α) :
    (r.links.map fun l => (l.handed k.toUInt64 r.nodes).pair (τ l.producer)).sum =
      P.crossing r.nodes (k + 1).toUInt64 τ := by
  have links : P.links = r.links.map Link.ends := by
    rw [← pending.plan]
    rfl
  rw [Plan.crossing, links, List.map_map]
  congr 1
  apply List.map_congr_left
  intro l hl
  exact (pending.handed_pair unrolled ok hl).2 (τ l.producer)

/-- A replay back at one index exchanges the gradient of the output, and what crosses over from the
index after, for the gradients of the input and of the constants, and what crosses over to the index
before. -/
theorem Pending.balance (unrolled : Unrolled P base n g) (inside : k < n)
    (pending : Pending P base (k + 1) r) (ok : (r.backward k.toUInt64 (g k)).result = .ok out)
    (κ : NodeId → Tangent α) (δ : Nat → Tangent α) :
    let nodes := (r.backward k.toUInt64 (g k)).state.nodes
    nodes.Graded k.toUInt64 ∧
      (g k).pair (P.tangentsAt base.history κ δ k P.output) +
          P.crossing r.nodes (k + 1).toUInt64 (P.tangentsBefore base.history κ δ (k + 1)) =
        nodes.pairing k.toUInt64 P.input (δ k) +
          ∑ m ∈ P.constants, nodes.pairing k.toUInt64 m (κ m) +
            P.crossing nodes k.toUInt64 (P.tangentsBefore base.history κ δ k) := by
  intro nodes
  have plan := pending.plan
  subst plan
  have valid := unrolled.valid
  have ready := pending.ready unrolled inside
  have fits : (g k).shape = Link.shapeOf r.nodes r.output := by
    rw [unrolled.outputs k inside, ← plan_shapeOf]
    rfl
  have swept : ∀ l ∈ r.links, ∃ e ∈ r.backwardOrder, e.result = l.producer := by
    intro l hl
    exact unrolled.swept l.ends (List.mem_map_of_mem hl)
  have bare : ∀ e ∈ r.forwardOrder,
      r.plan.seedsAfter κ δ (r.plan.tangentsBefore base.history κ δ k) k e.result = 0 := by
    intro e he
    exact valid.seedsAfter_of_result _ k he
  obtain ⟨graded, total⟩ := step_total valid ready fits
    (fun l hl => (pending.handed_pair unrolled ok hl).1) swept ok bare
  refine ⟨graded, ?_⟩
  have length : nodes.length = r.plan.nodes.length := by
    rw [Nodes.length_of_ungraded (r.backward_ungraded _ _), plan_nodes_length]
  have tangents : r.plan.tangentsAt base.history κ δ k =
      Expression.tangents (r.nodes.valueAt k.toUInt64)
        (r.plan.seedsAfter κ δ (r.plan.tangentsBefore base.history κ δ k) k) r.forwardOrder := by
    rw [Nodes.valueAt_of_ungraded pending.ungraded]
    exact r.plan.tangentsAt_eq base.history κ δ k
  rw [← valid.total_seedsAfter length, ← total, ← tangents, pending.handed_sum unrolled ok]
  rfl

/-- After a replay back at one index the index before it is next. -/
theorem Pending.step (unrolled : Unrolled P base n g) (inside : k < n)
    (pending : Pending P base (k + 1) r) (ok : (r.backward k.toUInt64 (g k)).result = .ok out) :
    Pending P base k (r.backward k.toUInt64 (g k)).state := by
  have plan := pending.plan
  subst plan
  have ready := pending.ready unrolled inside
  have isSome := backward_isSome_iff_reached unrolled.valid ready.isOpen ready.fresh ok
  constructor
  · exact r.backward_plan _ _
  · exact (r.backward_ungraded _ _).trans pending.ungraded
  · intro i
    by_cases here : i = k.toUInt64
    · subst here
      exact (pending.balance unrolled inside ok (fun _ => 0) (fun _ => 0)).1
    · intro m γ found
      rw [r.backward_gradient?_of_ne (g k) m here] at found
      rw [Nodes.shapeOf_of_ungraded (r.backward_ungraded _ _)]
      exact pending.graded i m γ found
  · intro t before m
    rw [r.backward_gradient?_of_ne (g k) m (unrolled.index_ne before inside)]
    exact pending.fresh t (Nat.lt_succ_of_lt before) m
  · intro m found
    exact (isSome m).mp found
  · -- What a link read is missing only where its consumer is missing at all indices.
    intro l hl missing
    rw [backward_links ok] at hl
    obtain ⟨l', hl', rfl⟩ := List.mem_map.mp hl
    simp only [Index.next?_toUInt64 (given_below (backward_ok ok).1 hl'), Option.bind_some]
    by_contra read
    have present := pending.reached l'.consumer (Option.isSome_iff_ne_none.mpr read)
    have found := (isSome l'.consumer).mpr present
    rw [missing] at found
    cases found

end Index

/-! ### The sequence -/

section Sequence

variable [Field α] [BEq α] {P : Plan α} {base : Nodes α} {n k : Nat} {g : Nat → Tensor α}
  {r : Procedure α}

/-- Going back over a sequence goes through all its indices. -/
theorem collect_pending (unrolled : Unrolled P base n g) (inside : k ≤ n)
    (pending : Pending P base k r) {answers : List (Index × Tensor α)}
    (ok : (Outcome.collect backwardEntry r (descending g k)).result = .ok answers) :
    Pending P base 0 (Outcome.collect backwardEntry r (descending g k)).state := by
  induction k generalizing r answers with
  | zero => exact pending
  | succ k ih =>
      rw [descending_succ] at ok ⊢
      obtain ⟨⟨answer, here⟩, ⟨rest, later⟩, state⟩ := Outcome.collect_cons_ok ok
      obtain ⟨out, first, -⟩ := Outcome.andThen_ok.mp here
      rw [state]
      apply ih (by omega) _ later
      rw [backwardEntry_state]
      exact pending.step unrolled inside first

/-- Over a sequence what crosses from index to index cancels. -/
theorem collect_balance (unrolled : Unrolled P base n g) (inside : k ≤ n)
    (pending : Pending P base k r) {answers : List (Index × Tensor α)}
    (ok : (Outcome.collect backwardEntry r (descending g k)).result = .ok answers)
    (κ : NodeId → Tangent α) (δ : Nat → Tangent α) :
    let nodes := (Outcome.collect backwardEntry r (descending g k)).state.nodes
    ∑ t ∈ range k, (g t).pair (P.tangentsAt base.history κ δ t P.output) +
        P.crossing r.nodes k.toUInt64 (P.tangentsBefore base.history κ δ k) =
      ∑ t ∈ range k, (nodes.pairing t.toUInt64 P.input (δ t) +
        ∑ m ∈ P.constants, nodes.pairing t.toUInt64 m (κ m)) := by
  induction k generalizing r answers with
  | zero =>
      intro nodes
      rw [Plan.tangentsBefore, Plan.crossing_zero, add_zero]
      rfl
  | succ k ih =>
      rw [descending_succ] at ok ⊢
      obtain ⟨⟨answer, here⟩, ⟨rest, later⟩, state⟩ := Outcome.collect_cons_ok ok
      obtain ⟨out, first, -⟩ := Outcome.andThen_ok.mp here
      intro nodes
      have nodesEq : nodes =
          (Outcome.collect backwardEntry (r.backwardEntry (k.toUInt64, g k)).state
            (descending g k)).state.nodes := congrArg Procedure.nodes state
      rw [backwardEntry_state] at later nodesEq
      have balance := (pending.balance unrolled inside first κ δ).2
      have rest := ih (Nat.le_of_succ_le inside) (pending.step unrolled inside first) later
      -- The gradients at this index stay while the earlier ones are gone back at.
      have stay (m : NodeId) : nodes.gradient? m k.toUInt64 =
          (r.backward k.toUInt64 (g k)).state.nodes.gradient? m k.toUInt64 := by
        rw [nodesEq]
        apply collect_backward_gradient?
        intro entry hentry same
        obtain ⟨t, before, rfl⟩ := mem_descending.mp hentry
        exact unrolled.index_ne before inside same.symm
      have pairing (m : NodeId) (σ : Tangent α) : nodes.pairing k.toUInt64 m σ =
          (r.backward k.toUInt64 (g k)).state.nodes.pairing k.toUInt64 m σ := by
        rw [Nodes.pairing, stay]
        rfl
      rw [sum_range_succ, sum_range_succ, pairing, sum_congr rfl fun m _ => pairing m (κ m)]
      simp only [← nodesEq] at rest
      rw [add_assoc, balance, ← rest]
      ring

/-- Going back over a sequence leaves gradients at its indices only, if there were none. -/
theorem collect_index_mem (fresh : ∀ m i, r.nodes.gradient? m i = none) {m : NodeId} {i : Index}
    (found : ((Outcome.collect backwardEntry r (descending g k)).state.nodes.gradient? m i).isSome) :
    i ∈ (range k).image Nat.toUInt64 := by
  by_contra outside
  have stays : (Outcome.collect backwardEntry r (descending g k)).state.nodes.gradient? m i =
      none := by
    rw [← fresh m i]
    apply collect_backward_gradient?
    rintro entry hentry rfl
    obtain ⟨t, before, rfl⟩ := mem_descending.mp hentry
    exact outside (mem_image_of_mem _ (mem_range.mpr before))
  rw [stays] at found
  cases found

end Sequence

/-! ### From reset to the first index -/

section Exact

variable [Field α] [BEq α] {p q r : Procedure α} {n : Nat} {x g : Nat → Tensor α}
  {xs gs ys ds : Series (Tensor α)}

/-- After a reset and a replay forward of a sequence there are no gradients. -/
theorem forwardSeries_gradient? (q : Procedure α) (xs : Series (Tensor α)) (m : NodeId)
    (i : Index) : (q.reset.forwardSeries xs).state.nodes.gradient? m i = none := by
  rw [Nodes.gradient?_of_unvalued (q.reset.forwardSeries_unvalued xs), reset_gradient?]

/-- After a reset and a replay forward of a sequence all its indices are to be gone back at. -/
theorem forwardSeries_pending (q : Procedure α) (xs : Series (Tensor α)) (n : Nat) :
    Pending q.plan (q.reset.forwardSeries xs).state.nodes n (q.reset.forwardSeries xs).state := by
  have fresh := q.forwardSeries_gradient? xs
  constructor
  · rw [forwardSeries_plan, reset_plan]
  · rfl
  · intro i m γ found
    rw [fresh] at found
    cases found
  · intro t _ m
    exact fresh m _
  · intro m found
    rw [fresh] at found
    cases found
  · intro l hl _
    exact forwardSeries_unread q.reset_unread xs l hl

/-- What going back over a sequence starts from. -/
theorem forwardSeries_unrolled (compiled : Session.Compiled p) (reaches : p.Reaches q)
    (isOpen : q.nodes.Open)
    (uniform : ∀ l ∈ p.links, p.plan.shapeOf l.producer = p.plan.shapeOf l.consumer)
    (swept : ∀ l ∈ p.links, ∃ e ∈ p.backwardOrder, e.result = l.producer)
    (inputs : xs.IsSequence n x)
    (outputFits : ∀ t < n, (g t).shape = p.plan.shapeOf p.output)
    (computed : (q.reset.forwardSeries xs).result = .ok ys)
    (fits : ∀ t < n, (q.reset.forwardSeries xs).state.nodes.Fits t.toUInt64) :
    Unrolled p.plan (q.reset.forwardSeries xs).state.nodes n g where
  valid := compiled.plan_valid
  isOpen := (Nodes.open_of_unvalued (q.reset.forwardSeries_unvalued xs)).mpr (reset_isOpen isOpen)
  uniform := by
    intro l hl
    obtain ⟨link, hlink, rfl⟩ := List.mem_map.mp hl
    exact uniform link hlink
  swept := by
    intro l hl
    obtain ⟨link, hlink, rfl⟩ := List.mem_map.mp hl
    exact swept link hlink
  ascending := fun _ _ before inside => inputs.ascending before inside
  holds := by
    intro t inside e he
    have plan : q.reset.plan = p.plan := q.reset_plan.trans (reaches_plan reaches)
    have order : q.reset.forwardOrder = p.forwardOrder := congrArg Plan.forwardOrder plan
    have entry : (t.toUInt64, x t) ∈ xs.entries := by
      rw [inputs]
      exact List.mem_map_of_mem (List.mem_range.mpr inside)
    exact forwardSeries_holds (plan ▸ compiled.plan_valid) computed _ entry e (order ▸ he)
  fits := fits
  outputs := outputFits

/-- Going back through time is exact: over a sequence the inner products of the gradients of the
output with its tangents are those of the gradients of the input with its tangents, and of the sums
of the gradients of the constants with theirs. The ends of each link need one shape, and the output
has to depend on the producer within one replay. -/
theorem sequence_exact (compiled : Session.Compiled p) (reaches : p.Reaches q)
    (isOpen : q.nodes.Open)
    (uniform : ∀ l ∈ p.links, p.plan.shapeOf l.producer = p.plan.shapeOf l.consumer)
    (swept : ∀ l ∈ p.links, ∃ e ∈ p.backwardOrder, e.result = l.producer)
    (inputs : xs.IsSequence n x) (gradients : gs.IsSequence n g)
    (outputFits : ∀ t < n, (g t).shape = p.plan.shapeOf p.output)
    (computed : (q.reset.forwardSeries xs).result = .ok ys)
    (fits : ∀ t < n, (q.reset.forwardSeries xs).state.nodes.Fits t.toUInt64)
    (backed : ((q.reset.forwardSeries xs).state.backwardSeries gs none).result = .ok ds)
    (κ : NodeId → Tangent α) (δ : Nat → Tangent α) :
    let nodes := ((q.reset.forwardSeries xs).state.backwardSeries gs none).state.nodes
    let τ := p.plan.tangentsAt nodes.history κ δ
    ∃ sum : NodeId → Option (Tensor α),
      (∀ m ∈ p.plan.constants, nodes.gradientSum m = .ok (sum m)) ∧
        ∑ t ∈ range n, (g t).pair (τ t p.output) =
          ∑ t ∈ range n, nodes.pairing t.toUInt64 p.input (δ t) +
            ∑ m ∈ p.plan.constants, ((sum m).map (·.pair (κ m))).getD 0 := by
  have unrolled := forwardSeries_unrolled compiled reaches isOpen uniform swept inputs outputFits
    computed fits
  have fresh := q.forwardSeries_gradient? xs
  have pending := q.forwardSeries_pending xs n
  rw [reaches_plan reaches] at pending
  rw [backwardSeries_all, gradients.reverse] at backed ⊢
  rw [Outcome.andThen_done_state]
  obtain ⟨answers, collected, -⟩ := Outcome.andThen_ok.mp backed
  have last := collect_pending unrolled le_rfl pending collected
  have balance := collect_balance unrolled le_rfl pending collected κ δ
  intro nodes τ
  have values := Nodes.history_of_ungraded last.ungraded
  -- The sums over all indices are sums over the sequence.
  choose sum made paired using
    Nodes.gradientSum_eq last.graded fun m i found => collect_index_mem fresh found
  refine ⟨sum, fun m _ => made m, ?_⟩
  dsimp only at balance
  rw [Plan.crossing_of_fresh _ (fun m => fresh m _), add_zero, ← values] at balance
  simp only [paired, sum_image inputs.injOn]
  rw [sum_comm, ← sum_add_distrib]
  exact balance

end Exact

/-- Two builds of `y = s * w + x` with `y` as the next state `s`, for `x` and `s` of two elements and
a single `w`, the second not ended yet. -/
def stateSession : Session ℚ :=
  (Session.start "state").run
    [.hold (.fill [2] 3), .hold (.fill [1] 2), .hold (.fill [2] 0), .register [1],
      .begin 0, .compute (.arithmetic .multiply 2 1), .compute (.arithmetic .add 3 0), .finish 4,
      .begin 0, .compute (.arithmetic .multiply 4 1), .compute (.arithmetic .add 5 0)]

/-- The same tensor at two indices. -/
def twice (t : Tensor ℚ) : Series (Tensor ℚ) := ⟨[(0, t), (1, t)], by simp⟩

theorem twice_isSequence (t : Tensor ℚ) : (twice t).IsSequence 2 fun _ => t := rfl

theorem state_exact :
    ∃ p : Procedure ℚ, Session.Compiled p ∧ p.links ≠ [] ∧
      let nodes := ((p.reset.forwardSeries (twice (.fill [2] 3))).state.backwardSeries
        (twice (.fill [2] 1)) none).state.nodes
      let τ := p.plan.tangentsAt nodes.history (fun _ => 1) (fun _ => 1)
      ∃ sum : NodeId → Option (Tensor ℚ),
        (∀ m ∈ p.plan.constants, nodes.gradientSum m = .ok (sum m)) ∧
          ∑ t ∈ range 2, (Tensor.fill [2] 1).pair (τ t p.output) =
            ∑ t ∈ range 2, nodes.pairing t.toUInt64 p.input 1 +
              ∑ m ∈ p.plan.constants, ((sum m).map (·.pair 1)).getD 0 := by
  have compiled : Session.Compiled _ := ⟨stateSession, 6, ⟨"state", _, rfl⟩, rfl⟩
  refine ⟨_, compiled, List.cons_ne_nil _ _, ?_⟩
  have balanced := sequence_exact compiled ⟨[], rfl⟩ compiled.isOpen (by decide) (by decide)
    (twice_isSequence (.fill [2] 3)) (twice_isSequence (.fill [2] 1)) (fun _ _ => rfl) rfl
    (by decide) rfl (fun _ => 1) (fun _ => 1)
  exact balanced

end Procedure

end GradientReplay
