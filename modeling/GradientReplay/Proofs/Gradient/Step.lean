import GradientReplay.Proofs.Gradient.Sweep

/-!
One replay back.

The tangents given to begin with are those of the input, of the constants and of some carried nodes
(`Plan.seeds`), and the total under them is the sum over these nodes (`total_seeds`). A replay back
starts from the gradient of the output and from what the links hand to their producers
(`given_total`), and ends with the total under the tangents given to begin with (`step_total`).
-/

namespace GradientReplay

open Finset

variable {α : Type}

/-! ### Tangents to begin with -/

namespace Plan

instance (P : Plan α) : DecidablePred P.Constant := fun n =>
  decidable_of_iff ((P.nodes[n]?.any (·.constant)) = true) (by simp [Constant, Option.any_eq_true])

/-- The constants of a plan. -/
def constants (P : Plan α) : Finset NodeId := {n ∈ range P.nodes.length | P.Constant n}

variable [Field α]

/-- The tangents of the constants, of the input and of some carried nodes; zero for all others. -/
def seeds (P : Plan α) (κ : NodeId → Tangent α) (δ : Tangent α)
    (carried : List (NodeId × Tangent α)) : NodeId → Tangent α :=
  carried.foldr (fun c τ => Function.update τ c.1 c.2)
    (Function.update (fun n => if P.Constant n then κ n else 0) P.input δ)

variable {P : Plan α} {κ : NodeId → Tangent α} {δ : Tangent α} {carried : List (NodeId × Tangent α)}

/-- A node that is none of those has no tangent to begin with. -/
theorem seeds_of_other {n : NodeId} (input : n ≠ P.input) (varies : ¬ P.Constant n)
    (free : ∀ c ∈ carried, c.1 ≠ n) : P.seeds κ δ carried n = 0 := by
  induction carried with
  | nil =>
      rw [seeds, List.foldr_nil, Function.update_of_ne input, if_neg varies]
  | cons c carried ih =>
      have ne : n ≠ c.1 := (free c List.mem_cons_self).symm
      rw [seeds, List.foldr_cons, Function.update_of_ne ne]
      exact ih fun d hd => free d (List.mem_cons_of_mem _ hd)

theorem Valid.seeds_of_result (valid : P.Valid) (states : ∀ c ∈ carried, P.Carried c.1)
    {e : Expression α} (he : e ∈ P.forwardOrder) : P.seeds κ δ carried e.result = 0 := by
  obtain ⟨notInput, computed⟩ := valid.results e he
  apply seeds_of_other notInput computed.not_constant
  intro c hc same
  exact computed.not_carried (same ▸ states c hc)

/-- The total under the tangents to begin with, node by node. -/
theorem Valid.total_seeds (valid : P.Valid) {nodes : Nodes α}
    (length : nodes.length = P.nodes.length) (i : Index) (κ : NodeId → Tangent α) (δ : Tangent α)
    (carried : List (NodeId × Tangent α)) (states : ∀ c ∈ carried, P.Carried c.1) (distinct : (carried.map Prod.fst).Nodup) :
    nodes.total i (P.seeds κ δ carried) =
      nodes.pairing i P.input δ + ∑ n ∈ P.constants, nodes.pairing i n (κ n) +
        (carried.map fun c => nodes.pairing i c.1 c.2).sum := by
  induction carried with
  | nil =>
      have varies : ¬ P.Constant P.input := valid.input.not_constant
      have bare : (fun n => if P.Constant n then κ n else 0) P.input = (0 : Tangent α) :=
        if_neg varies
      rw [seeds, List.foldr_nil, Nodes.total_update nodes i bare, List.map_nil, List.sum_nil,
        add_zero, add_comm]
      congr 1
      rw [Nodes.total, length, constants, sum_filter]
      apply sum_congr rfl
      intro n _
      by_cases const : P.Constant n
      · rw [if_pos const, if_pos const]
      · rw [if_neg const, if_neg const, Nodes.pairing_zero]
  | cons c carried ih =>
      obtain ⟨fresh, distinct⟩ := List.nodup_cons.mp distinct
      have state := states c List.mem_cons_self
      have bare : P.seeds κ δ carried c.1 = 0 := by
        apply seeds_of_other _ state.not_constant
        · intro d hd same
          exact fresh (List.mem_map.mpr ⟨d, hd, same⟩)
        · intro same
          exact valid.input.not_carried (same ▸ state)
      have step : P.seeds κ δ (c :: carried) = Function.update (P.seeds κ δ carried) c.1 c.2 := rfl
      rw [step, Nodes.total_update nodes i bare,
        ih (fun d hd => states d (List.mem_cons_of_mem _ hd)) distinct, List.map_cons,
        List.sum_cons]
      ring

end Plan

/-! ### What the links hand to their producers -/

namespace Link

variable [Field α] {i : Index}

/-- What a link hands on does not depend on the gradients at the index itself. -/
theorem handed_of_giveBack (link link' : Link α) (i : Index) (nodes : Nodes α) :
    link'.handed i (link.giveBack i nodes).state.2 = link'.handed i nodes := by
  have ungraded := (link.giveBack_frame i nodes).2
  have read : i.next?.bind ((link.giveBack i nodes).state.2.gradient? link'.consumer) =
      i.next?.bind (nodes.gradient? link'.consumer) :=
    Index.next?_bind_congr fun j ne => link.giveBack_gradient?_of_ne nodes link'.consumer ne
  rw [handed, handed, read, Nodes.shapeOf_of_ungraded ungraded]

/-- The links add to the total the inner products of what they hand on with the tangents of their
producers. -/
theorem giveBackAll_total {links : List (Link α)} {nodes : Nodes α}
    (takes : ∀ l ∈ links, nodes.Takes l.producer) (graded : nodes.Graded i)
    (alike : ∀ l ∈ links, (l.handed i nodes).shape.Alike (shapeOf nodes l.producer))
    (ok : (giveBackAll i links nodes).result = .ok ()) :
    (giveBackAll i links nodes).state.2.Graded i ∧
      ∀ τ, (giveBackAll i links nodes).state.2.total i τ =
        nodes.total i τ + (links.map fun l => (l.handed i nodes).pair (τ l.producer)).sum := by
  induction links generalizing nodes with
  | nil => exact ⟨graded, fun τ => (add_zero _).symm⟩
  | cons link links ih =>
      rw [giveBackAll_cons] at ok ⊢
      cases first : (link.giveBack i nodes).result with
      | error e =>
          rw [first] at ok
          cases ok
      | ok b =>
          rw [first] at ok
          have here := alike link List.mem_cons_self
          have ungraded := (link.giveBack_frame i nodes).2
          have shapes : shapeOf (link.giveBack i nodes).state.2 = shapeOf nodes :=
            Nodes.shapeOf_of_ungraded ungraded
          have settles := Tensor.settle_alike here (.inr rfl)
          have made : nodes.accumulate link.producer i .plus (link.handed i nodes) =
              .ok (link.giveBack i nodes).state.2 := (giveBack_ok first).2
          obtain ⟨graded', total'⟩ :=
            Nodes.accumulate_total made (takes link List.mem_cons_self) graded settles
          obtain ⟨graded'', total''⟩ := ih
            (fun l hl => (Nodes.takes_of_ungraded ungraded).mpr (takes l (List.mem_cons_of_mem _ hl)))
            graded'
            (fun l hl => by
              rw [handed_of_giveBack, shapes]
              exact alike l (List.mem_cons_of_mem _ hl)) ok
          refine ⟨graded'', fun τ => ?_⟩
          simp only [Outcome.embed_state, List.map_cons, List.sum_cons]
          rw [total'', total' τ, Tensor.settle_pair_of_alike here]
          simp only [handed_of_giveBack, Sign.apply]
          ring

end Link

/-! ### A replay back at a computed index -/

namespace Procedure

variable [Field α] [BEq α] {p : Procedure α} {i : Index} {g : Tensor α}

/-- The index was computed and not gone back at yet, and no node is stopped. -/
structure Ready (p : Procedure α) (i : Index) : Prop where
  holds : ∀ e ∈ p.forwardOrder, e.Holds i p.nodes
  fits : p.nodes.Fits i
  isOpen : p.nodes.Open
  fresh : ∀ n, p.nodes.gradient? n i = none

omit [BEq α] in
theorem setGradient_total (valid : p.plan.Valid) (fresh : ∀ n, p.nodes.gradient? n i = none)
    (fits : g.shape = Link.shapeOf p.nodes p.output) :
    (p.nodes.setGradient p.output i g).Graded i ∧
      ∀ τ, (p.nodes.setGradient p.output i g).total i τ = g.pair (τ p.output) := by
  have inside : p.output < p.nodes.length := p.plan_nodes_length ▸ valid.output
  have ungraded := Nodes.ungraded_setGradient p.nodes p.output i g
  have found := Nodes.gradient?_setGradient_self (List.getElem?_eq_getElem inside) i g
  have other {n : NodeId} (ne : n ≠ p.output) :
      (p.nodes.setGradient p.output i g).gradient? n i = none := by
    rw [Nodes.gradient?_setGradient_of_ne _ _ (.inl ne), fresh]
  constructor
  · intro n γ hγ
    rw [Nodes.shapeOf_of_ungraded ungraded]
    by_cases same : n = p.output
    · subst same
      rw [found] at hγ
      cases hγ
      exact .inl fits
    · rw [other same] at hγ
      cases hγ
  · intro τ
    have nothing : p.nodes.total i τ = 0 :=
      sum_eq_zero fun n _ => Nodes.pairing_of_none (fresh n) (τ n)
    rw [← zero_add (g.pair _), ← nothing]
    apply Nodes.total_of_change (Nodes.length_of_ungraded ungraded) _ inside
    intro n
    rw [Nodes.pairing_of_none (fresh n), zero_add]
    by_cases same : n = p.output
    · subst same
      rw [if_pos rfl, Nodes.pairing_of_some found]
    · rw [if_neg same, Nodes.pairing_of_none (other same)]

/-- The sweep starts from the gradient of the output and from what the links hand on. -/
theorem given_total (valid : p.plan.Valid) (ready : p.Ready i)
    (fits : g.shape = Link.shapeOf p.nodes p.output)
    (alike : ∀ l ∈ p.links, (l.handed i p.nodes).shape.Alike (Link.shapeOf p.nodes l.producer))
    (ok : (p.given i g).result = .ok ()) :
    (p.given i g).state.2.Graded i ∧
      ∀ τ, (p.given i g).state.2.total i τ =
        g.pair (τ p.output) + (p.links.map fun l => (l.handed i p.nodes).pair (τ l.producer)).sum := by
  obtain ⟨graded, total⟩ := setGradient_total valid ready.fresh fits
  have ungraded := Nodes.ungraded_setGradient p.nodes p.output i g
  have handed (l : Link α) : l.handed i (p.nodes.setGradient p.output i g) = l.handed i p.nodes := by
    have read : i.next?.bind ((p.nodes.setGradient p.output i g).gradient? l.consumer) =
        i.next?.bind (p.nodes.gradient? l.consumer) :=
      Index.next?_bind_congr fun j ne => Nodes.gradient?_setGradient_of_ne _ _ (.inr ne)
    rw [Link.handed, Link.handed, read, Nodes.shapeOf_of_ungraded ungraded]
  have takes : ∀ l ∈ p.links, (p.nodes.setGradient p.output i g).Takes l.producer := by
    intro l hl
    have inside : l.producer < p.nodes.length := by
      rw [← p.plan_nodes_length]
      exact (producer_computed valid hl).lt
    rw [Nodes.takes_of_ungraded ungraded]
    exact ⟨_, List.getElem?_eq_getElem inside, ready.isOpen _ (List.getElem_mem inside)⟩
  obtain ⟨graded', total'⟩ := Link.giveBackAll_total takes graded
    (fun l hl => by
      rw [handed, Nodes.shapeOf_of_ungraded ungraded]
      exact alike l hl) ok
  refine ⟨graded', fun τ => ?_⟩
  unfold given
  rw [total', total]
  simp only [handed]

/-- A replay back turns the gradient of the output and what the links hand on, paired with the
tangents of all nodes, into the total under the tangents given to begin with. The expressions that
give the producers of the links have to be in the backward order. -/
theorem step_total (valid : p.plan.Valid) (ready : p.Ready i)
    (fits : g.shape = Link.shapeOf p.nodes p.output)
    (alike : ∀ l ∈ p.links, (l.handed i p.nodes).shape.Alike (Link.shapeOf p.nodes l.producer))
    (swept : ∀ l ∈ p.links, ∃ e ∈ p.backwardOrder, e.result = l.producer) {out : NodeId}
    (ok : (p.backward i g).result = .ok out) {seeds : NodeId → Tangent α}
    (bare : ∀ e ∈ p.forwardOrder, seeds e.result = 0) :
    (p.backward i g).state.nodes.Graded i ∧
      let τ := Expression.tangents (p.nodes.valueAt i) seeds p.forwardOrder
      g.pair (τ p.output) + (p.links.map fun l => (l.handed i p.nodes).pair (τ l.producer)).sum =
        (p.backward i g).state.nodes.total i seeds := by
  obtain ⟨given, rules⟩ := backward_ok ok
  obtain ⟨graded, total⟩ := given_total valid ready fits alike given
  have ordered : Ordered p.forwardOrder := valid.ordered
  have sub : p.backwardOrder.Sublist p.forwardOrder.reverse := valid.backward_sublist
  have fed : ∀ e ∈ p.forwardOrder.reverse,
      ((p.given i g).state.2.gradient? e.result i).isSome → e ∈ p.backwardOrder := by
    intro e he found
    have he : e ∈ p.forwardOrder := List.mem_reverse.mp he
    rw [given_isSome valid given] at found
    rcases found with output | present | ⟨⟨l, hl, producer⟩ | ⟨d, hd, -⟩, -⟩
    · apply (valid.mem_backward_iff he).mpr
      rw [output]
      exact .self _
    · rw [ready.fresh] at present
      cases present
    · obtain ⟨e', he', give⟩ := swept l hl
      have same := ordered.eq_of_result_eq he (valid.backward_subset he')
        (producer.symm.trans give.symm)
      exact same ▸ he'
    · cases hd
  obtain ⟨graded', sweep⟩ := Expression.backwardAll_total ordered.reverse_descending sub
    (fun e he e' he' give => valid.backward_closed he (List.mem_reverse.mp he') give)
    (fun e he => ready.holds e (List.mem_reverse.mp he)) ready.fits ready.isOpen
    (fun e he => bare e (List.mem_reverse.mp he)) (p.given_frame i g).2 graded fed rules
  rw [(backward_of_given given).1]
  refine ⟨graded', ?_⟩
  rw [List.reverse_reverse] at sweep
  rw [← sweep, total]

end Procedure

end GradientReplay
