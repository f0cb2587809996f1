import GradientReplay.Proofs.Graph.View
import GradientReplay.Proofs.Recorder.Session
import GradientReplay.Proofs.Tensor.Coordinate

/-!
What every recording satisfies, whatever calls led to it.

Node 0 is the input; each expression takes its arguments from nodes before its result, results
ascend, and a node that is neither input nor result is a constant or was carried over from the
build before (`Recording.Valid`). A bound tensor and its node have one shape. Where results are
computed and not given, the shapes of the nodes follow the operations (`Recording.Shaped`).
-/

namespace GradientReplay

/-! ### The shape of a result -/

namespace Term

variable {α : Type}

/-- The shape of the tensor that a term over tensors of these shapes stands for, if it stands for
one. -/
def shape : Term α Shape → Shape
  | unary _ x => x
  | binary _ x c => x.common c
  | arithmetic .dot x y => [x.headD 0, y.tail.headD 0]
  | arithmetic _ x y => x.common y

end Term

/-! ### Arenas -/

namespace Arena

variable {α : Type}

/-- The nodes of an arena are numbered by position and hold nothing yet, and each bound tensor is
held by the caller and has the shape of its node. -/
structure Valid (held : List (Tensor α)) (arena : Arena α) : Prop where
  numbered : ∀ (k : NodeId) (n : Node α), arena.nodes[k]? = some n → n.id = k
  blank : ∀ n ∈ arena.nodes, n.values = .empty ∧ n.gradients = .empty ∧ n.stopped = false
  bound : ∀ (x : TensorId) (k : NodeId), arena.find? x = some k →
    ∃ (n : Node α) (t : Tensor α), arena.nodes[k]? = some n ∧ held[x]? = some t ∧ n.shape = t.shape

theorem Valid.empty (held : List (Tensor α)) : (Arena.empty : Arena α).Valid held where
  numbered := fun k n h => by simp [Arena.empty] at h
  blank := fun n h => by simp [Arena.empty] at h
  bound := fun x k h => by simp [Arena.empty, find?] at h

/-- An arena stays valid when what the caller holds changes and keeps its shapes. -/
theorem Valid.mono {held held' : List (Tensor α)} {arena : Arena α}
    (keep : ∀ (x : TensorId) (t : Tensor α), held[x]? = some t →
      ∃ t', held'[x]? = some t' ∧ t'.shape = t.shape)
    (valid : arena.Valid held) : arena.Valid held' where
  numbered := valid.numbered
  blank := valid.blank
  bound := fun x k h => by
    obtain ⟨n, t, hn, ht, shape⟩ := valid.bound x k h
    obtain ⟨t', ht', shape'⟩ := keep x t ht
    exact ⟨n, t', hn, ht', shape.trans shape'.symm⟩

/-- Defining a node finds the one that is bound, or adds one at the end. -/
theorem define_cases (arena : Arena α) (x : Operand α) (constant : Bool) (build : Nat)
    (origin : Origin ExpressionId) :
    (∃ node, arena.find? x.id = some node ∧
      arena.define x constant build origin = (arena, node)) ∨
    arena.find? x.id = none ∧
      arena.define x constant build origin =
        (⟨arena.nodes ++ [.create arena.nodes.length x.tensor constant build origin],
          arena.bindings ++ [(x.id, arena.nodes.length)]⟩, arena.nodes.length) := by
  unfold define
  cases h : arena.find? x.id with
  | some node => exact .inl ⟨node, rfl, rfl⟩
  | none => exact .inr ⟨rfl, rfl⟩

theorem find?_append (arena : Arena α) (nodes : Nodes α) (x y : TensorId) (k : NodeId) :
    (⟨nodes, arena.bindings ++ [(x, k)]⟩ : Arena α).find? y =
      (arena.find? y).or (if y = x then some k else none) := by
  unfold find?
  rw [List.lookup_append]
  by_cases h : y = x <;> simp [h]

/-- An arena with one more node, bound to a tensor that the caller holds. -/
theorem Valid.add {held : List (Tensor α)} {arena : Arena α} (valid : arena.Valid held)
    {x : Operand α} (hold : held[x.id]? = some x.tensor) (constant : Bool) (build : Nat)
    (origin : Origin ExpressionId) :
    Valid held
      ⟨arena.nodes ++ [.create arena.nodes.length x.tensor constant build origin],
        arena.bindings ++ [(x.id, arena.nodes.length)]⟩ where
  numbered := fun k n h => by
    rcases lt_trichotomy k arena.nodes.length with lt | rfl | gt
    · rw [List.getElem?_append_left lt] at h
      exact valid.numbered k n h
    · rw [List.getElem?_concat_length] at h
      cases h
      rfl
    · rw [List.getElem?_eq_none (by rw [List.length_append]; exact gt)] at h
      cases h
  blank := fun n h => by
    rcases List.mem_append.mp h with h | h
    · exact valid.blank n h
    · cases List.mem_singleton.mp h
      exact ⟨rfl, rfl, rfl⟩
  bound := fun y k h => by
    rw [find?_append] at h
    cases hy : arena.find? y with
    | some node =>
        rw [hy] at h
        cases h
        obtain ⟨n, t, hn, ht, shape⟩ := valid.bound y k hy
        have lt : k < arena.nodes.length := (List.getElem?_eq_some_iff.mp hn).1
        exact ⟨n, t, (List.getElem?_append_left lt).trans hn, ht, shape⟩
    | none =>
        rw [hy] at h
        by_cases same : y = x.id
        · subst same
          simp only [Option.none_or, if_true, Option.some.injEq] at h
          subst h
          exact ⟨_, x.tensor, List.getElem?_concat_length, hold, rfl⟩
        · simp [same] at h

end Arena

/-! ### Recordings -/

namespace Recording

variable {α : Type}

structure Valid (held : List (Tensor α)) (r : Recording α) : Prop where
  arena : r.arena.Valid held
  /-- The input is node 0, and neither a constant nor carried over. -/
  input : r.inputNode = 0 ∧ ∃ n, r.arena.nodes[0]? = some n ∧ n.constant = false ∧
    n.origin.isCarried = false
  /-- Arguments come before the result. -/
  arguments : ∀ e ∈ r.expressions, ∀ a ∈ e.term.arguments, a < e.result
  ascending : r.expressions.Pairwise (·.result < ·.result)
  results : ∀ e ∈ r.expressions, 0 < e.result ∧ ∃ n, r.arena.nodes[e.result]? = some n ∧
    n.constant = false ∧ n.origin.isCarried = false
  /-- What is neither input nor result is a constant or carried over, and not both. -/
  leaves : ∀ (k : NodeId) (n : Node α), r.arena.nodes[k]? = some n → k ≠ 0 →
    (∀ e ∈ r.expressions, e.result ≠ k) → n.constant = !n.origin.isCarried

/-- The shape of each result follows from the shapes of the arguments. -/
def Shaped (r : Recording α) : Prop :=
  ∀ e ∈ r.expressions,
    Link.shapeOf r.arena.nodes e.result = (e.term.map (Link.shapeOf r.arena.nodes)).shape

/-- A recording that grew by nodes only. -/
structure Grows (r r' : Recording α) : Prop where
  expressions : r'.expressions = r.expressions
  inputNode : r'.inputNode = r.inputNode
  nodes : r.arena.nodes <+: r'.arena.nodes

theorem Grows.refl (r : Recording α) : r.Grows r := ⟨rfl, rfl, List.prefix_rfl⟩

theorem Grows.trans {r s t : Recording α} (h : r.Grows s) (h' : s.Grows t) : r.Grows t :=
  ⟨h'.expressions.trans h.expressions, h'.inputNode.trans h.inputNode, h.nodes.trans h'.nodes⟩

theorem Valid.mono {held held' : List (Tensor α)} {r : Recording α}
    (keep : ∀ (x : TensorId) (t : Tensor α), held[x]? = some t →
      ∃ t', held'[x]? = some t' ∧ t'.shape = t.shape)
    (valid : r.Valid held) : r.Valid held' :=
  { valid with arena := valid.arena.mono keep }

theorem Valid.result_lt {held : List (Tensor α)} {r : Recording α} (valid : r.Valid held)
    {e : Expression α} (he : e ∈ r.expressions) : e.result < r.arena.nodes.length := by
  obtain ⟨n, hn, -⟩ := (valid.results e he).2
  exact (List.getElem?_eq_some_iff.mp hn).1

/-- A node keeps its shape when nodes are added behind it. -/
theorem shapeOf_of_grown {nodes nodes' : Nodes α} (h : nodes <+: nodes') {k : NodeId}
    (lt : k < nodes.length) : Link.shapeOf nodes' k = Link.shapeOf nodes k := by
  obtain ⟨more, rfl⟩ := h
  unfold Link.shapeOf
  rw [List.getElem?_append_left lt]

theorem Valid.start {held : List (Tensor α)} (build : Nat) {input : Operand α}
    (hold : held[input.id]? = some input.tensor) : (Recording.start build input).Valid held where
  arena := (Arena.Valid.empty held).add hold false build (.leaf 0)
  input := ⟨rfl, _, rfl, rfl, rfl⟩
  arguments := fun e he => by cases he
  ascending := .nil
  results := fun e he => by cases he
  leaves := fun k n hn ne => by
    rcases k with _ | k
    · exact absurd rfl ne
    · cases hn

/-- A node stays where it is when nodes are added behind it. -/
theorem getElem?_of_grown {nodes : Nodes α} {k : NodeId} {n : Node α} (hn : nodes[k]? = some n)
    (more : Nodes α) : (nodes ++ more)[k]? = some n :=
  (List.getElem?_append_left (List.getElem?_eq_some_iff.mp hn).1).trans hn

/-- A recording with one more node that is a constant, or was carried over. -/
theorem Valid.addLeaf {held : List (Tensor α)} {r : Recording α} (valid : r.Valid held)
    {x : Operand α} (hold : held[x.id]? = some x.tensor) {constant : Bool} (build : Nat)
    {origin : Origin ExpressionId} (opposite : constant = !origin.isCarried) :
    Valid held
      { r with
        arena := ⟨r.arena.nodes ++ [.create r.arena.nodes.length x.tensor constant build origin],
          r.arena.bindings ++ [(x.id, r.arena.nodes.length)]⟩ } where
  arena := valid.arena.add hold constant build origin
  input := by
    obtain ⟨zero, n, hn, plain⟩ := valid.input
    exact ⟨zero, n, getElem?_of_grown hn _, plain⟩
  arguments := valid.arguments
  ascending := valid.ascending
  results := by
    intro e he
    obtain ⟨positive, n, hn, plain⟩ := valid.results e he
    exact ⟨positive, n, getElem?_of_grown hn _, plain⟩
  leaves := by
    intro k n hn ne free
    rcases lt_trichotomy k r.arena.nodes.length with lt | rfl | gt
    · rw [List.getElem?_append_left lt] at hn
      exact valid.leaves k n hn ne free
    · rw [List.getElem?_concat_length] at hn
      cases hn
      exact opposite
    · rw [List.getElem?_eq_none (by rw [List.length_append]; exact gt)] at hn
      cases hn

/-- Binding an argument keeps a recording valid. The node has the shape of the tensor, and no
other tensor is bound by it. -/
theorem Valid.bindArgument {held : List (Tensor α)} {r : Recording α} (valid : r.Valid held)
    (previous : Option Predecessor) {x : Operand α} (hold : held[x.id]? = some x.tensor)
    {r' : Recording α} {k : NodeId} (h : r.bindArgument previous x = (r', k)) :
    r'.Valid held ∧ r.Grows r' ∧ k < r'.arena.nodes.length ∧
      Link.shapeOf r'.arena.nodes k = x.tensor.shape ∧
      ∀ y, y ≠ x.id → r.arena.find? y = none → r'.arena.find? y = none := by
  -- Whichever of the two kinds of node is asked for, its flag is the opposite of its origin's.
  obtain ⟨constant, build, origin, opposite, h⟩ : ∃ constant build origin,
      (constant = !origin.isCarried) ∧
      ({ r with arena := (r.arena.define x constant build origin).1 },
        (r.arena.define x constant build origin).2) = (r', k) := by
    unfold Recording.bindArgument at h
    cases carried : (do
        let p ← previous
        let source ← p.results.lookup x.id
        some (p.build, source) : Option (Nat × ExpressionId)) with
    | some found =>
        simp only [carried] at h
        exact ⟨false, found.1, .carried found.2, rfl, h⟩
    | none =>
        simp only [carried] at h
        exact ⟨true, r.build, .leaf r.expressions.length, rfl, h⟩
  rcases r.arena.define_cases x constant build origin with ⟨node, found, eq⟩ | ⟨unbound, eq⟩
  · rw [eq] at h
    cases h
    obtain ⟨n, t, hn, ht, shape⟩ := valid.arena.bound x.id node found
    have same : t = x.tensor := Option.some.inj (ht.symm.trans hold)
    refine ⟨valid, .refl r, (List.getElem?_eq_some_iff.mp hn).1, ?_, fun y _ hy => hy⟩
    rw [Nodes.shapeOf_of_getElem? hn, shape, same]
  · rw [eq] at h
    cases h
    refine ⟨valid.addLeaf hold build opposite, ⟨rfl, rfl, List.prefix_append _ _⟩, ?_, ?_, ?_⟩
    · rw [List.length_append]
      exact Nat.lt_succ_self _
    · rw [Nodes.shapeOf_of_getElem? List.getElem?_concat_length]
      rfl
    · intro y ne hy
      change (Arena.mk _ _).find? y = none
      rw [Arena.find?_append, hy, if_neg ne]
      rfl

/-- Two arguments are bound one after the other; the node of the first keeps place and shape. -/
theorem Valid.bindTwo {held : List (Tensor α)} {r r₁ r₂ : Recording α} (valid : r.Valid held)
    {previous : Option Predecessor} {x y : Operand α} (hx : held[x.id]? = some x.tensor)
    (hy : held[y.id]? = some y.tensor) {j k : NodeId}
    (first : r.bindArgument previous x = (r₁, j)) (second : r₁.bindArgument previous y = (r₂, k)) :
    r₂.Valid held ∧ r.Grows r₂ ∧ (j < r₂.arena.nodes.length ∧ k < r₂.arena.nodes.length) ∧
      (Link.shapeOf r₂.arena.nodes j = x.tensor.shape ∧
        Link.shapeOf r₂.arena.nodes k = y.tensor.shape) ∧
      ∀ z, z ≠ x.id → z ≠ y.id → r.arena.find? z = none → r₂.arena.find? z = none := by
  obtain ⟨valid₁, grows₁, lt₁, shape₁, free₁⟩ := valid.bindArgument previous hx first
  obtain ⟨valid₂, grows₂, lt₂, shape₂, free₂⟩ := valid₁.bindArgument previous hy second
  refine ⟨valid₂, grows₁.trans grows₂, ⟨?_, lt₂⟩, ⟨?_, shape₂⟩, ?_⟩
  · exact lt_of_lt_of_le lt₁ grows₂.nodes.length_le
  · rw [shapeOf_of_grown grows₂.nodes lt₁, shape₁]
  · intro z ne ne' unbound
    exact free₂ z ne' (free₁ z ne unbound)

/-- Binding the arguments of a term keeps a recording valid. The nodes have the shapes of the
tensors, and no other tensor is bound by it. -/
theorem Valid.bindTerm {held : List (Tensor α)} {r : Recording α} (valid : r.Valid held)
    (previous : Option Predecessor) {term : Term α (Operand α)}
    (hold : ∀ x ∈ term.arguments, held[x.id]? = some x.tensor)
    {r' : Recording α} {t : Term α NodeId} (h : r.bindTerm previous term = (r', t)) :
    r'.Valid held ∧ r.Grows r' ∧ (∀ a ∈ t.arguments, a < r'.arena.nodes.length) ∧
      t.map (Link.shapeOf r'.arena.nodes) = term.map (·.tensor.shape) ∧
      ∀ y, (∀ x ∈ term.arguments, y ≠ x.id) → r.arena.find? y = none →
        r'.arena.find? y = none := by
  cases term with
  | unary f x =>
      cases hx : r.bindArgument previous x with
      | mk r₁ j =>
          have hold : held[x.id]? = some x.tensor := hold x List.mem_cons_self
          obtain ⟨valid', grows, lt, shape, free⟩ := valid.bindArgument previous hold hx
          simp only [Recording.bindTerm, hx] at h
          cases h
          exact ⟨valid', grows, by simpa [Term.arguments, Term.first, Term.second?] using lt,
            by simp [Term.map, shape], fun y ne => free y (ne x List.mem_cons_self)⟩
  | binary f x c | arithmetic f x c =>
      cases hx : r.bindArgument previous x with
      | mk r₁ j =>
          cases hc : r₁.bindArgument previous c with
          | mk r₂ k =>
              obtain ⟨valid', grows, ⟨ltj, ltk⟩, ⟨shapej, shapek⟩, free⟩ :=
                valid.bindTwo (hold x (by simp [Term.arguments, Term.first]))
                  (hold c (by simp [Term.arguments, Term.second?])) hx hc
              simp only [Recording.bindTerm, hx, hc] at h
              cases h
              refine ⟨valid', grows, ?_, by simp [Term.map, shapej, shapek], fun y ne hy => ?_⟩
              · simp [Term.arguments, Term.first, Term.second?, ltj, ltk]
              · exact free y (ne x (by simp [Term.arguments, Term.first]))
                  (ne c (by simp [Term.arguments, Term.second?])) hy

/-- Adding an expression over nodes that exist, with a result that is not bound, keeps a recording
valid. The result is the node behind all others and has the shape of its tensor. -/
theorem Valid.push {held : List (Tensor α)} {r : Recording α} (valid : r.Valid held)
    {t : Term α NodeId} (inside : ∀ a ∈ t.arguments, a < r.arena.nodes.length)
    {result : Operand α} (hold : held[result.id]? = some result.tensor)
    (unbound : r.arena.find? result.id = none) :
    (r.push t result).Valid held ∧ r.arena.nodes <+: (r.push t result).arena.nodes ∧
      (r.push t result).expressions =
        r.expressions ++ [⟨r.expressions.length, t, r.arena.nodes.length⟩] ∧
      Link.shapeOf (r.push t result).arena.nodes r.arena.nodes.length = result.tensor.shape := by
  have eq : r.push t result =
      { r with
        arena := ⟨r.arena.nodes ++ [.create r.arena.nodes.length result.tensor false r.build
            (.result r.expressions.length)],
          r.arena.bindings ++ [(result.id, r.arena.nodes.length)]⟩
        expressions := r.expressions ++ [⟨r.expressions.length, t, r.arena.nodes.length⟩]
        results := r.results ++ [(result.id, r.expressions.length)] } := by
    simp [Recording.push, Arena.define, unbound]
  rw [eq]
  have positive : 0 < r.arena.nodes.length := by
    obtain ⟨-, n, hn, -⟩ := valid.input
    exact (List.getElem?_eq_some_iff.mp hn).1
  refine ⟨?_, List.prefix_append _ _, rfl, ?_⟩
  · obtain ⟨zero, n, hn, plain⟩ := valid.input
    refine ⟨valid.arena.add hold false r.build _, ⟨zero, n, getElem?_of_grown hn _, plain⟩, fun e he => ?_, ?_,
      fun e he => ?_, fun j n hn ne free => ?_⟩
    · rcases List.mem_append.mp he with he | he
      · exact valid.arguments e he
      · cases List.mem_singleton.mp he
        exact inside
    · refine List.pairwise_append.mpr ⟨valid.ascending, List.pairwise_singleton _ _, ?_⟩
      intro e he e' he'
      cases List.mem_singleton.mp he'
      exact valid.result_lt he
    · rcases List.mem_append.mp he with he | he
      · obtain ⟨pos, n, hn, plain⟩ := valid.results e he
        exact ⟨pos, n, getElem?_of_grown hn _, plain⟩
      · cases List.mem_singleton.mp he
        exact ⟨positive, _, List.getElem?_concat_length, rfl, rfl⟩
    · have ne' : j ≠ r.arena.nodes.length := by
        have := free ⟨r.expressions.length, t, r.arena.nodes.length⟩
          (List.mem_append_right _ List.mem_cons_self)
        exact this.symm
      have lt : j < r.arena.nodes.length := by
        have inside := (List.getElem?_eq_some_iff.mp hn).1
        rw [List.length_append, List.length_singleton] at inside
        exact Nat.lt_of_le_of_ne (Nat.le_of_lt_succ inside) ne'
      rw [List.getElem?_append_left lt] at hn
      exact valid.leaves j n hn ne fun e he => free e (List.mem_append_left _ he)
  · rw [Nodes.shapeOf_of_getElem? List.getElem?_concat_length]
    rfl

/-- Recording a term keeps a recording valid. It keeps it shaped if the result has the shape that
the term gives it. -/
theorem Valid.record {held : List (Tensor α)} {r : Recording α} (valid : r.Valid held)
    (previous : Option Predecessor) {term : Term α (Operand α)}
    (hold : ∀ x ∈ term.arguments, held[x.id]? = some x.tensor) {result : Operand α}
    (holdResult : held[result.id]? = some result.tensor) {r' : Recording α} {id : ExpressionId}
    (h : r.record previous term result = .ok (r', id)) :
    r'.Valid held ∧
      (r.Shaped → result.tensor.shape = (term.map (·.tensor.shape)).shape → r'.Shaped) := by
  unfold Recording.record at h
  obtain ⟨⟨⟩, checked, h⟩ := bind_ok_iff.mp h
  cases bound : r.bindTerm previous term with
  | mk r₁ t =>
      rw [bound] at h
      cases h
      unfold checkResult at checked
      split at checked
      · cases checked
      rename_i fresh
      split at checked
      · cases checked
      rename_i unbound
      obtain ⟨valid₁, grows, inside, shapes, free⟩ := valid.bindTerm previous hold bound
      have unbound₁ : r₁.arena.find? result.id = none := by
        refine free result.id (fun x hx same => fresh ?_) ?_
        · exact List.mem_map.mpr ⟨x, hx, same.symm⟩
        · simpa [Arena.binds] using unbound
      obtain ⟨valid₂, grows₂, expressions, shape⟩ := valid₁.push inside holdResult unbound₁
      refine ⟨valid₂, fun shaped fits e he => ?_⟩
      rw [expressions] at he
      rcases List.mem_append.mp he with he | he
      · -- The nodes of an expression from before keep their shapes.
        have he₀ : e ∈ r.expressions := grows.expressions ▸ he
        have keep {k : NodeId} (lt : k < r.arena.nodes.length) :
            Link.shapeOf (r₁.push t result).arena.nodes k = Link.shapeOf r.arena.nodes k :=
          shapeOf_of_grown (grows.nodes.trans grows₂) lt
        have lt := valid.result_lt he₀
        rw [keep lt, shaped e he₀]
        exact congrArg Term.shape (Term.map_congr fun a ha =>
          (keep (lt_trans (valid.arguments e he₀ a ha) lt)).symm)
      · cases List.mem_singleton.mp he
        have keep : t.map (Link.shapeOf (r₁.push t result).arena.nodes) =
            t.map (Link.shapeOf r₁.arena.nodes) :=
          Term.map_congr fun a ha => shapeOf_of_grown grows₂ (inside a ha)
        rw [shape, fits, keep, shapes]

end Recording

end GradientReplay
