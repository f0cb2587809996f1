import GradientReplay.Proofs.Recorder.Flow
import GradientReplay.Proofs.Recorder.History

/-!
Plans: what is fixed of a procedure when its build is compiled, and what every compiled procedure
satisfies.

A plan is valid (`Plan.Valid`) when its expressions are in order, its nodes are told apart into the
input, the results, the constants and the carried ones, and each link leads from a result to a
carried node. Whatever calls led to it, a compiled procedure has a valid plan
(`Session.Compiled.plan_valid`); recorded by computing, its shapes follow the operations
(`Session.Assisted.plan_shaped`).
-/

namespace GradientReplay

structure Plan (α : Type) where
  name : String
  forwardOrder : List (Expression α)
  backwardOrder : List (Expression α)
  input : NodeId
  output : NodeId
  /-- The producer and the consumer of each link. -/
  links : List (NodeId × NodeId)
  nodes : List Node.Profile
  bound : List (TensorId × NodeId)

/-- The producer and the consumer. -/
def Link.ends {α : Type} (link : Link α) : NodeId × NodeId := (link.producer, link.consumer)

/-- What is fixed of a procedure when its build is compiled. -/
def Procedure.plan {α : Type} (p : Procedure α) : Plan α where
  name := p.name
  forwardOrder := p.forwardOrder
  backwardOrder := p.backwardOrder
  input := p.input
  output := p.output
  links := p.links.map Link.ends
  nodes := p.nodes.profiles
  bound := p.bound

namespace Plan

variable {α : Type}

/-- The shape of a node, as `Link.shapeOf`. -/
def shapeOf (P : Plan α) (n : NodeId) : Shape := (P.nodes[n]?.map (·.shape)).getD []

/-- The node has a value stored by computing: it is neither a constant nor carried over. -/
def Computed (P : Plan α) (n : NodeId) : Prop :=
  ∃ c, P.nodes[n]? = some c ∧ c.constant = false ∧ c.origin.isCarried = false

/-- The node was carried over from the build before. -/
def Carried (P : Plan α) (n : NodeId) : Prop :=
  ∃ c, P.nodes[n]? = some c ∧ c.constant = false ∧ c.origin.isCarried = true

/-- The node is a constant. -/
def Constant (P : Plan α) (n : NodeId) : Prop :=
  ∃ c, P.nodes[n]? = some c ∧ c.constant = true

structure Valid (P : Plan α) : Prop where
  ordered : Ordered P.forwardOrder
  backward : P.backwardOrder = GradientReplay.backwardOrder P.forwardOrder P.output
  input : P.Computed P.input
  output : P.output < P.nodes.length
  results : ∀ e ∈ P.forwardOrder, e.result ≠ P.input ∧ P.Computed e.result
  /-- What is neither input nor result is a constant or carried over. -/
  leaves : ∀ n < P.nodes.length, n ≠ P.input → (∀ e ∈ P.forwardOrder, e.result ≠ n) →
    P.Constant n ∨ P.Carried n
  producers : ∀ l ∈ P.links, ∃ e ∈ P.forwardOrder, e.result = l.1
  consumers : ∀ l ∈ P.links, P.Carried l.2
  /-- No two links have one consumer. -/
  distinct : (P.links.map Prod.snd).Nodup

/-- The shape of each result follows from the shapes of the arguments. -/
def Shaped (P : Plan α) : Prop :=
  ∀ e ∈ P.forwardOrder, P.shapeOf e.result = (e.term.map P.shapeOf).shape

/-! ### The kinds of nodes exclude each other -/

variable {P : Plan α} {n : NodeId}

theorem Computed.lt (h : P.Computed n) : n < P.nodes.length := by
  obtain ⟨c, hc, -⟩ := h
  exact (List.getElem?_eq_some_iff.mp hc).1

theorem Computed.not_constant (h : P.Computed n) : ¬ P.Constant n := by
  rintro ⟨c', hc', const⟩
  obtain ⟨c, hc, plain, -⟩ := h
  cases hc.symm.trans hc'
  rw [plain] at const
  cases const

theorem Carried.not_constant (h : P.Carried n) : ¬ P.Constant n := by
  rintro ⟨c', hc', const⟩
  obtain ⟨c, hc, plain, -⟩ := h
  cases hc.symm.trans hc'
  rw [plain] at const
  cases const

theorem Computed.not_carried (h : P.Computed n) : ¬ P.Carried n := by
  rintro ⟨c', hc', -, carried⟩
  obtain ⟨c, hc, -, plain⟩ := h
  cases hc.symm.trans hc'
  rw [plain] at carried
  cases carried

/-- Results of expressions are nodes. -/
theorem Valid.result_lt (valid : P.Valid) {e : Expression α} (he : e ∈ P.forwardOrder) :
    e.result < P.nodes.length :=
  (valid.results e he).2.lt

theorem Valid.backward_subset (valid : P.Valid) : P.backwardOrder ⊆ P.forwardOrder :=
  valid.backward ▸ backwardOrder_subset P.forwardOrder P.output

theorem Valid.backward_sublist (valid : P.Valid) :
    P.backwardOrder.Sublist P.forwardOrder.reverse :=
  valid.backward ▸ wantedFrom_sublist _ _

/-- With an expression the backward order holds all that give its arguments. -/
theorem Valid.backward_closed (valid : P.Valid) {e e' : Expression α}
    (he : e ∈ P.backwardOrder) (he' : e' ∈ P.forwardOrder)
    (give : e'.result ∈ e.term.arguments) : e' ∈ P.backwardOrder := by
  rw [valid.backward] at he ⊢
  exact valid.ordered.backwardOrder_closed he he' give

/-- The backward order holds exactly the expressions that the output depends on. -/
theorem Valid.mem_backward_iff (valid : P.Valid) {e : Expression α} (he : e ∈ P.forwardOrder) :
    e ∈ P.backwardOrder ↔ DependsOn P.forwardOrder P.output e.result := by
  rw [valid.backward, valid.ordered.mem_backwardOrder_iff]
  constructor
  · intro h
    exact h.2
  · intro h
    exact ⟨he, h⟩

end Plan

namespace Procedure

variable {α : Type}

theorem plan_shapeOf (p : Procedure α) (n : NodeId) :
    p.plan.shapeOf n = Link.shapeOf p.nodes n :=
  (Nodes.shapeOf_eq p.nodes n).symm

theorem plan_nodes_getElem? (p : Procedure α) (n : NodeId) :
    p.plan.nodes[n]? = p.nodes[n]?.map Node.profile :=
  List.getElem?_map

theorem plan_nodes_length (p : Procedure α) : p.plan.nodes.length = p.nodes.length :=
  List.length_map _

theorem links_eq_nil {p q : Procedure α} (same : q.plan = p.plan) (unlinked : p.links = []) :
    q.links = [] := by
  have ends : q.links.map Link.ends = p.links.map Link.ends := congrArg Plan.links same
  rw [unlinked] at ends
  exact List.map_eq_nil_iff.mp ends

section Ends

variable {p : Procedure α} (valid : p.plan.Valid) {l : Link α} (hl : l ∈ p.links)

include valid hl

/-- The producer of a link is the result of an expression. -/
theorem exists_producer : ∃ e ∈ p.forwardOrder, e.result = l.producer :=
  valid.producers l.ends (List.mem_map_of_mem hl)

theorem producer_computed : p.plan.Computed l.producer := by
  obtain ⟨e, he, give⟩ := exists_producer valid hl
  have computed := (valid.results e he).2
  rwa [give] at computed

theorem consumer_carried : p.plan.Carried l.consumer :=
  valid.consumers l.ends (List.mem_map_of_mem hl)

theorem producer_ne_input : l.producer ≠ p.input := by
  obtain ⟨e, he, give⟩ := exists_producer valid hl
  exact give ▸ (valid.results e he).1

theorem consumer_ne_input : l.consumer ≠ p.input := by
  intro same
  have carried := consumer_carried valid hl
  rw [same] at carried
  exact valid.input.not_carried carried

end Ends

end Procedure

/-! ### Compiled procedures -/

namespace Recorder

variable {α : Type}

/-- A build that ends is compiled against the build before it, if there was one. -/
theorem finish_answer {r : Recorder α} {output : TensorId} {answer : Option (Procedure α)}
    (h : (r.finish output).result = .ok answer) :
    ∃ recording node, r.current = some recording ∧ recording.arena.find? output = some node ∧
      answer = r.previous.map fun previous =>
        compile r.name r.constants previous recording output node := by
  unfold finish at h
  cases current : r.current with
  | none =>
      rw [current] at h
      cases h
  | some recording =>
      cases found : recording.arena.find? output with
      | none =>
          simp only [current, found] at h
          cases h
      | some node =>
          simp only [current, found] at h
          cases h
          exact ⟨recording, node, rfl, found, rfl⟩

/-- A build that ends with a procedure was compiled against the build before it. -/
theorem finish_ok {r : Recorder α} {output : TensorId} {p : Procedure α}
    (h : (r.finish output).result = .ok (some p)) :
    ∃ recording node previous, r.current = some recording ∧
      recording.arena.find? output = some node ∧ r.previous = some previous ∧
      p = compile r.name r.constants previous recording output node := by
  obtain ⟨recording, node, current, found, answer⟩ := finish_answer h
  obtain ⟨previous, before, compiled⟩ := Option.map_eq_some_iff.mp answer.symm
  exact ⟨recording, node, previous, current, found, before, compiled.symm⟩

end Recorder

/-- A valid recording compiles to a valid plan. -/
theorem Recording.Valid.plan_valid {α : Type} {held : List (Tensor α)} {r : Recording α}
    (valid : r.Valid held) (name : String) (constants : List TensorId) (previous : Predecessor)
    {output : TensorId} {node : NodeId} (found : r.arena.find? output = some node) :
    (Recorder.compile name constants previous r output node).plan.Valid := by
  have profile {k : NodeId} {n : Node α} (hn : r.arena.nodes[k]? = some n) :
      r.arena.nodes.profiles[k]? = some n.profile := by
    rw [Nodes.profiles, List.getElem?_map, hn]
    rfl
  obtain ⟨zero, first, hfirst, plain⟩ := valid.input
  refine ⟨⟨valid.arguments, valid.ascending⟩, rfl, ?_, ?_, fun e he => ?_, fun n hn ne free => ?_,
    fun l hl => ?_, fun l hl => ?_, ?_⟩
  · refine ⟨first.profile, profile ?_, plain⟩
    exact (congrArg (r.arena.nodes[·]?) zero).trans hfirst
  · obtain ⟨n, -, hn, -, -⟩ := valid.arena.bound output node found
    rw [Procedure.plan_nodes_length]
    exact (List.getElem?_eq_some_iff.mp hn).1
  · obtain ⟨positive, n, hn, plain⟩ := valid.results e he
    refine ⟨fun same => ?_, n.profile, profile hn, plain⟩
    exact absurd (same.trans zero) (Nat.ne_of_gt positive)
  · obtain ⟨c, hc⟩ : ∃ c, r.arena.nodes[n]? = some c := by
      rw [Procedure.plan_nodes_length] at hn
      exact ⟨_, List.getElem?_eq_getElem hn⟩
    have kind := valid.leaves n c hc (fun h => ne (h.trans zero.symm)) free
    cases carried : c.origin.isCarried with
    | true => exact .inr ⟨c.profile, profile hc, by rw [carried] at kind; exact kind, carried⟩
    | false => exact .inl ⟨c.profile, profile hc, by rw [carried] at kind; exact kind⟩
  · obtain ⟨link, hlink, rfl⟩ := List.mem_map.mp hl
    obtain ⟨source, -, e, he, eq⟩ := stateLinks_cases hlink
    exact ⟨e, he, by rw [eq]; rfl⟩
  · obtain ⟨link, hlink, rfl⟩ := List.mem_map.mp hl
    obtain ⟨source, carried, e, he, eq⟩ := stateLinks_cases hlink
    obtain ⟨n, hn, isCarried⟩ := carriedFrom?_eq_some carried
    -- The node is carried, so it is neither the input nor a result.
    have ne : link.consumer ≠ 0 := by
      intro same
      rw [same, hfirst] at hn
      cases hn
      rw [isCarried] at plain
      cases plain.2
    have free : ∀ e ∈ r.expressions, e.result ≠ link.consumer := by
      intro e he same
      obtain ⟨-, n', hn', plain'⟩ := valid.results e he
      rw [same, hn] at hn'
      cases hn'
      rw [isCarried] at plain'
      cases plain'.2
    have kind := valid.leaves link.consumer n hn ne free
    rw [isCarried] at kind
    exact ⟨n.profile, profile hn, kind, isCarried⟩
  · simp only [Procedure.plan, Recorder.compile, List.map_map]
    exact consumers_nodup previous.arities r.arena.nodes r.expressions

namespace Session

variable {α : Type} [Zero α] [Add α] [Sub α] [Mul α] [Div α] [BEq α] {p : Procedure α}

/-- Whatever calls led to it, a compiled procedure has a valid plan. -/
theorem Compiled.plan_valid (compiled : Compiled p) : p.plan.Valid := by
  obtain ⟨s, output, reached, finished⟩ := compiled
  obtain ⟨recording, node, previous, current, found, -, rfl⟩ := Recorder.finish_ok finished
  exact (reached_valid reached recording current).plan_valid _ _ previous found

/-- The nodes of a compiled procedure hold nothing yet, and none is stopped. -/
theorem Compiled.blank (compiled : Compiled p) :
    ∀ n ∈ p.nodes, n.values = .empty ∧ n.gradients = .empty ∧ n.stopped = false := by
  obtain ⟨s, output, reached, finished⟩ := compiled
  obtain ⟨recording, node, previous, current, -, -, rfl⟩ := Recorder.finish_ok finished
  exact (reached_valid reached recording current).arena.blank

theorem Compiled.isOpen (compiled : Compiled p) : p.nodes.Open := by
  intro n hn
  exact (compiled.blank n hn).2.2

theorem Compiled.fresh (compiled : Compiled p) (n : NodeId) (i : Index) :
    p.nodes.gradient? n i = none := by
  unfold Nodes.gradient?
  cases hn : p.nodes[n]? with
  | none => rfl
  | some c =>
      obtain ⟨-, empty, -⟩ := compiled.blank c (List.mem_of_getElem? hn)
      simp [Node.gradient?, empty]

/-- The shapes of a procedure that was recorded by computing follow the operations. -/
theorem Assisted.plan_shaped (assisted : Assisted p) : p.plan.Shaped := by
  obtain ⟨s, calls, output, reached, idle, each, finished⟩ := assisted
  obtain ⟨recording, node, previous, current, -, -, rfl⟩ := Recorder.finish_ok finished
  intro e he
  have eq (n : NodeId) := Procedure.plan_shapeOf
    (Recorder.compile (s.run calls).recorder.name (s.run calls).recorder.constants previous
      recording output node) n
  rw [eq, Term.map_congr fun a _ => eq a]
  exact assisted_shaped reached idle each recording current e he

end Session

end GradientReplay
