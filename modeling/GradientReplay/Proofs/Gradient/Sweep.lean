import GradientReplay.Proofs.Gradient.Contribution
import GradientReplay.Proofs.Gradient.Rule
import Mathlib.Algebra.BigOperators.Group.Finset.Piecewise

/-!
The sweep over the expressions.

The total of the nodes at an index (`Nodes.total`) is the sum of the inner products of their
gradients with their tangents. Tangents are pushed forward through the expressions one by one
(`Expression.tangents`). When the rule of the last expression is applied, the total under the
tangents up to that expression becomes the total under the tangents before it: its result gives up
its tangent, and the arguments take its gradient over. So a sweep ends with the total under the
tangents that were given to begin with (`backwardAll_total`).
-/

namespace GradientReplay

open Finset

variable {α : Type} [Field α]

/-! ### Totals -/

namespace Nodes

/-- The inner product of the gradient of a node with a tangent; zero where there is none. -/
def pairing (nodes : Nodes α) (i : Index) (n : NodeId) (σ : Tangent α) : α :=
  ((nodes.gradient? n i).map (·.pair σ)).getD 0

/-- The inner products of the gradients of all nodes with their tangents. -/
def total (nodes : Nodes α) (i : Index) (τ : NodeId → Tangent α) : α :=
  ∑ n ∈ range nodes.length, nodes.pairing i n (τ n)

variable {nodes nodes' : Nodes α} {i : Index} {m n : NodeId}

theorem pairing_of_none (h : nodes.gradient? n i = none) (σ : Tangent α) :
    nodes.pairing i n σ = 0 := by
  rw [pairing, h]
  rfl

theorem pairing_of_some {γ : Tensor α} (h : nodes.gradient? n i = some γ) (σ : Tangent α) :
    nodes.pairing i n σ = γ.pair σ := by
  rw [pairing, h]
  rfl

theorem pairing_zero (nodes : Nodes α) (i : Index) (n : NodeId) : nodes.pairing i n 0 = 0 := by
  unfold pairing
  cases nodes.gradient? n i with
  | none => rfl
  | some γ => exact γ.pair_zero

theorem pairing_of_length_le (h : nodes.length ≤ n) (σ : Tangent α) : nodes.pairing i n σ = 0 := by
  apply pairing_of_none
  rw [gradient?, List.getElem?_eq_none h]
  rfl

/-- Totals that differ at one node. -/
theorem total_of_change {τ τ' : NodeId → Tangent α} {d : α} (length : nodes'.length = nodes.length)
    (change : ∀ k, nodes'.pairing i k (τ' k) = nodes.pairing i k (τ k) + if k = m then d else 0)
    (inside : m < nodes.length) : nodes'.total i τ' = nodes.total i τ + d := by
  unfold total
  rw [length, sum_congr rfl fun k _ => change k, sum_add_distrib, sum_ite_eq',
    if_pos (mem_range.mpr inside)]

/-- A node that had no tangent and is given one. -/
theorem total_update (nodes : Nodes α) (i : Index) {τ : NodeId → Tangent α} (none : τ m = 0)
    (σ : Tangent α) :
    nodes.total i (Function.update τ m σ) = nodes.total i τ + nodes.pairing i m σ := by
  by_cases inside : m < nodes.length
  · apply total_of_change rfl _ inside
    intro k
    by_cases same : k = m
    · subst same
      rw [Function.update_self, none, pairing_zero, if_pos rfl, zero_add]
    · rw [Function.update_of_ne same, if_neg same, add_zero]
  · have outside := pairing_of_length_le (i := i) (Nat.le_of_not_lt inside) σ
    rw [outside, add_zero]
    apply sum_congr rfl
    intro k hk
    have ne : k ≠ m := by
      rintro rfl
      exact inside (mem_range.mp hk)
    rw [Function.update_of_ne ne]

/-- A contribution to a node that takes it adds its inner product with the tangent of the node. -/
theorem accumulate_total {sign : Sign} {g : Tensor α} (h : nodes.accumulate m i sign g = .ok nodes')
    (takes : nodes.Takes m) (graded : nodes.Graded i)
    (settles : (g.settle (Link.shapeOf nodes m)).shape.Alike (Link.shapeOf nodes m)) :
    nodes'.Graded i ∧ ∀ τ, nodes'.total i τ =
      nodes.total i τ + sign.apply ((g.settle (Link.shapeOf nodes m)).pair (τ m)) := by
  rcases accumulate_cases h with ⟨closed, -⟩ | ⟨c, γ, hc, -, combined, rfl⟩
  · exact absurd takes closed
  · have shape : Link.shapeOf nodes m = c.shape := shapeOf_of_getElem? hc
    rw [Tensor.fit_eq_settle, ← shape] at combined
    have oldAlike : ∀ o ∈ c.gradient? i, o.shape.Alike (Link.shapeOf nodes m) := by
      intro o ho
      apply graded m o
      rw [gradient?_of_getElem? hc]
      exact ho
    have paired := Tensor.combineGradient_pair combined oldAlike settles
    constructor
    · rw [Tensor.settle_shape] at settles
      exact accumulate_graded h graded settles
    · intro τ
      apply total_of_change (length_of_ungraded (ungraded_setGradient nodes m i γ)) _
        (List.getElem?_eq_some_iff.mp hc).1
      intro k
      by_cases same : k = m
      · subst same
        rw [if_pos rfl, pairing_of_some (gradient?_setGradient_self hc i γ), paired, pairing,
          gradient?_of_getElem? hc]
      · rw [if_neg same, add_zero, pairing, pairing,
          gradient?_setGradient_of_ne nodes γ (.inl same)]

/-- Contributions made one after the other add their inner products with the tangents. -/
theorem contributions_total {cs : List (Contribution α)} {shape : NodeId → Shape}
    (shapes : ∀ n, Link.shapeOf nodes n = shape n) (takes : ∀ c ∈ cs, nodes.Takes c.node)
    (graded : nodes.Graded i) (settles : ∀ c ∈ cs, c.Settles shape)
    (ok : (Outcome.each (Contribution.apply i) nodes cs).result = .ok ()) :
    (Outcome.each (Contribution.apply i) nodes cs).state.Graded i ∧
      ∀ τ, (Outcome.each (Contribution.apply i) nodes cs).state.total i τ =
        nodes.total i τ + contributed shape τ cs := by
  induction cs generalizing nodes with
  | nil => exact ⟨graded, fun τ => (add_zero _).symm⟩
  | cons c cs ih =>
      rw [Outcome.each_cons] at ok ⊢
      obtain ⟨⟨⟩, first, later⟩ := Outcome.andThen_ok.mp ok
      rw [Outcome.andThen_of_ok first]
      have made := Outcome.ofExcept_ok.mp first
      have ungraded := c.apply_ungraded i nodes
      have settled := settles c List.mem_cons_self
      unfold Contribution.Settles at settled
      rw [← shapes] at settled
      obtain ⟨graded', total'⟩ :=
        accumulate_total made (takes c List.mem_cons_self) graded settled
      obtain ⟨graded'', total''⟩ := ih
        (fun n => by rw [shapeOf_of_ungraded ungraded, shapes])
        (fun d hd => (takes_of_ungraded ungraded).mpr (takes d (List.mem_cons_of_mem _ hd)))
        graded' (fun d hd => settles d (List.mem_cons_of_mem _ hd)) later
      refine ⟨graded'', fun τ => ?_⟩
      rw [total'', contributed_cons, ← add_assoc, ← shapes, ← total' τ]
      rfl

end Nodes

/-! ### Tangents of all nodes -/

namespace Expression

/-- The tangents of all nodes: those given to begin with, and through the expressions in order those
of the results. -/
def tangents (value : NodeId → Tensor α) (seeds : NodeId → Tangent α) (es : List (Expression α)) :
    NodeId → Tangent α :=
  es.foldl
    (fun τ e => Function.update τ e.result (e.term.map fun n => (value n, τ n)).tangent) seeds

variable {value : NodeId → Tensor α} {seeds : NodeId → Tangent α}

theorem tangents_concat (es : List (Expression α)) (e : Expression α) :
    tangents value seeds (es ++ [e]) =
      Function.update (tangents value seeds es) e.result
        (e.term.map fun n => (value n, tangents value seeds es n)).tangent := by
  rw [tangents, List.foldl_append]
  rfl

/-- What no expression computes keeps the tangent it was given. -/
theorem tangents_of_not_result {es : List (Expression α)} {n : NodeId}
    (free : ∀ e ∈ es, e.result ≠ n) : tangents value seeds es n = seeds n := by
  induction es using List.reverseRecOn with
  | nil => rfl
  | append_singleton es e ih =>
      have ne : n ≠ e.result := (free e (List.mem_append_right es List.mem_cons_self)).symm
      rw [tangents_concat, Function.update_of_ne ne]
      exact ih fun e he => free e (List.mem_append_left _ he)

/-! ### One rule -/

variable [BEq α] {i : Index} {nodes base : Nodes α} {e : Expression α}

/-- The rule of an expression adds to the total the inner product of the gradient of its result with
the tangent of its result. -/
theorem backward_total (holds : e.Holds i nodes) (fits : nodes.Fits i) (isOpen : nodes.Open)
    (graded : nodes.Graded i) (ok : (e.backward i nodes).result = .ok ()) :
    (e.backward i nodes).state.Graded i ∧
      ∀ τ, (e.backward i nodes).state.total i τ = nodes.total i τ +
        nodes.pairing i e.result (e.term.map fun n => (nodes.valueAt i n, τ n)).tangent := by
  obtain ⟨cs, made, eq⟩ := backward_ok ok
  rw [eq] at ok ⊢
  obtain ⟨g, read, made⟩ := bind_ok_iff.mp made
  rw [Nodes.readGradient_ok] at read
  have readable : ∀ a ∈ e.term.arguments, nodes.readValue i a = .ok (nodes.valueAt i a) := by
    intro a ha
    exact Nodes.readValue_ok.mpr (holds.argument ha)
  have alike : g.shape.Alike (nodes.valueAt i e.result).shape := by
    obtain ⟨v, -, stored⟩ := holds
    rw [Nodes.valueAt_of_value? stored, fits e.result v stored]
    exact graded e.result g read
  obtain ⟨settles, paired⟩ := Term.contributions_exact readable holds.eval alike made
  -- The contributions go to arguments, which have values of their shapes.
  have shape : ∀ c ∈ cs, Link.shapeOf nodes c.node = (nodes.valueAt i c.node).shape ∧
      nodes.Takes c.node := by
    intro c hc
    have receiver : c.node ∈ e.term.receivers := by
      rw [← Term.contributions_receivers made]
      exact List.mem_map_of_mem hc
    have found := holds.argument (e.term.receivers_subset receiver)
    refine ⟨(fits c.node _ found).symm, ?_⟩
    obtain ⟨n, hn, -⟩ := Option.bind_eq_some_iff.mp found
    exact ⟨n, hn, isOpen n (List.mem_of_getElem? hn)⟩
  have settles' : ∀ c ∈ cs, c.Settles (Link.shapeOf nodes) := by
    intro c hc
    unfold Contribution.Settles
    rw [(shape c hc).1]
    exact settles c hc
  obtain ⟨graded', total⟩ :=
    Nodes.contributions_total (fun _ => rfl) (fun c hc => (shape c hc).2) graded settles' ok
  refine ⟨graded', fun τ => ?_⟩
  rw [total, Nodes.pairing_of_some read, ← paired τ]
  congr 1
  exact contributed_congr fun c hc => (shape c hc).1

/-! ### The sweep -/

/-- A sweep over expressions that hold with their equations, from the last to the first, turns the
total under the tangents of all nodes into the total under the tangents given to begin with. The
sweep may leave out expressions whose result has no gradient. -/
theorem backwardAll_total {later swept : List (Expression α)}
    (descending : later.Pairwise fun e e' => e'.result < e.result) (sub : swept.Sublist later)
    (closed : ∀ e ∈ swept, ∀ e' ∈ later, e'.result ∈ e.term.arguments → e' ∈ swept)
    (holds : ∀ e ∈ later, e.Holds i base) (fits : base.Fits i) (isOpen : base.Open)
    (bare : ∀ e ∈ later, seeds e.result = 0) (same : nodes.ungraded = base.ungraded)
    (graded : nodes.Graded i)
    (fed : ∀ e ∈ later, (nodes.gradient? e.result i).isSome → e ∈ swept)
    (ok : (backwardAll i swept nodes).result = .ok ()) :
    (backwardAll i swept nodes).state.Graded i ∧
      nodes.total i (tangents (base.valueAt i) seeds later.reverse) =
        (backwardAll i swept nodes).state.total i seeds := by
  induction sub generalizing nodes with
  | slnil => exact ⟨graded, rfl⟩
  | @cons swept earlier e sub ih =>
      obtain ⟨first, descending⟩ := List.pairwise_cons.mp descending
      -- The result of the expression that is left out has no gradient.
      have none : nodes.gradient? e.result i = none := by
        rw [← Option.not_isSome_iff_eq_none]
        intro found
        have mem := sub.subset (fed e List.mem_cons_self found)
        exact lt_irrefl _ (first e mem)
      have ne : ∀ e' ∈ earlier.reverse, e'.result ≠ e.result := by
        intro e' he'
        exact ne_of_lt (first e' (List.mem_reverse.mp he'))
      have own : tangents (base.valueAt i) seeds earlier.reverse e.result = 0 := by
        rw [tangents_of_not_result ne, bare e List.mem_cons_self]
      rw [List.reverse_cons, tangents_concat, Nodes.total_update nodes i own,
        Nodes.pairing_of_none none, add_zero]
      exact ih descending (fun d hd e' he' => closed d hd e' (List.mem_cons_of_mem _ he'))
        (fun e' he' => holds e' (List.mem_cons_of_mem _ he'))
        (fun e' he' => bare e' (List.mem_cons_of_mem _ he')) same graded
        (fun e' he' => fed e' (List.mem_cons_of_mem _ he')) ok
  | @cons_cons swept earlier e sub ih =>
      obtain ⟨first, descending⟩ := List.pairwise_cons.mp descending
      have ne : ∀ e' ∈ earlier.reverse, e'.result ≠ e.result := by
        intro e' he'
        exact ne_of_lt (first e' (List.mem_reverse.mp he'))
      have own : tangents (base.valueAt i) seeds earlier.reverse e.result = 0 := by
        rw [tangents_of_not_result ne, bare e List.mem_cons_self]
      -- What is found among the earlier expressions is not the first one.
      have rest {e' : Expression α} (he' : e' ∈ earlier) (found : e' ∈ e :: swept) :
          e' ∈ swept := by
        rcases List.mem_cons.mp found with rfl | found
        · exact absurd (first e' he') (lt_irrefl _)
        · exact found
      obtain ⟨⟨⟩, applied, later⟩ := Outcome.andThen_ok.mp ok
      have state : (backwardAll i (e :: swept) nodes).state =
          (backwardAll i swept (e.backward i nodes).state).state := by
        unfold backwardAll
        rw [Outcome.each_cons, Outcome.andThen_of_ok applied]
      have same' := (e.backward_ungraded i nodes).trans same
      have value := Nodes.valueAt_of_ungraded same i
      have here : e.Holds i nodes := (holds e List.mem_cons_self).of_ungraded same
      obtain ⟨graded', total⟩ := backward_total here (fits.of_ungraded same)
        ((Nodes.open_of_ungraded same).mpr isOpen) graded applied
      rw [state, List.reverse_cons, tangents_concat, Nodes.total_update nodes i own, ← value,
        ← total, value]
      apply ih descending _ (fun e' he' => holds e' (List.mem_cons_of_mem _ he'))
        (fun e' he' => bare e' (List.mem_cons_of_mem _ he')) same' graded' _ later
      · intro d hd e' he' give
        exact rest he' (closed d (List.mem_cons_of_mem _ hd) e' (List.mem_cons_of_mem _ he') give)
      · intro e' he' found
        rw [backward_isSome applied] at found
        apply rest he'
        rcases found with before | ⟨receives, -⟩
        · exact fed e' (List.mem_cons_of_mem _ he') before
        · exact closed e List.mem_cons_self e' (List.mem_cons_of_mem _ he')
            (e.term.receivers_subset receives)

end Expression

end GradientReplay
