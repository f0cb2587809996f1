import GradientReplay.Proofs.Recorder.Valid

/-!
The graph of a build: how tensors, nodes and expressions go together.

Tensors and nodes correspond one to one, in order (`Arena.Paired`). A successful recording adds the
nodes of the arguments that were not bound, the node of the result behind them and one expression
(`Recording.record_ok`), and leaves what was there (`Arena.Extends`). So each node is the declared
input, a constant, a result or a carried one, as its origin says (`Graph.Built`); which of them it
is depends on its tensor, on the expressions, and on the build that was ended last.
-/

namespace GradientReplay

variable {α : Type}

/-! ### Arenas -/

namespace Arena

/-- An arena with one more node, bound to a tensor. -/
def add (arena : Arena α) (x : TensorId) (n : Node α) : Arena α :=
  ⟨arena.nodes ++ [n], arena.bindings ++ [(x, arena.nodes.length)]⟩

/-- Tensors and nodes correspond one to one, in the order in which they were bound. -/
structure Paired (arena : Arena α) : Prop where
  tensors : (arena.bindings.map Prod.fst).Nodup
  nodes : arena.bindings.map Prod.snd = List.range arena.nodes.length

/-- What was bound stays bound, and whatever else is bound is bound to a new node. -/
structure Extends (a b : Arena α) : Prop where
  nodes : a.nodes <+: b.nodes
  keep : ∀ x k, a.find? x = some k → b.find? x = some k
  new : ∀ x k, b.find? x = some k → a.find? x = some k ∨ a.nodes.length ≤ k

variable {arena a b c : Arena α} {x y : TensorId} {k : NodeId} {n : Node α}

theorem find?_add (arena : Arena α) (x y : TensorId) (n : Node α) :
    (arena.add x n).find? y =
      (arena.find? y).or (if y = x then some arena.nodes.length else none) :=
  find?_append arena _ x y _

theorem find?_eq_none_iff : arena.find? x = none ↔ x ∉ arena.bindings.map Prod.fst := by
  unfold find?
  rw [List.lookup_eq_none_iff]
  simp only [bne_iff_ne, ne_eq, List.mem_map, not_exists, not_and]
  constructor
  · intro apart p hp same
    exact apart p hp same.symm
  · intro apart p hp same
    exact apart p hp same.symm

/-- Each tensor has one node, so looking it up is finding its binding. -/
theorem Paired.find?_iff (paired : arena.Paired) :
    arena.find? x = some k ↔ (x, k) ∈ arena.bindings := by
  unfold find?
  rw [List.lookup_eq_some_iff]
  constructor
  · rintro ⟨before, after, split, -⟩
    rw [split]
    exact List.mem_append_right _ List.mem_cons_self
  · intro mem
    obtain ⟨before, after, split⟩ := List.append_of_mem mem
    refine ⟨before, after, split, fun p hp => ?_⟩
    have distinct := paired.tensors
    rw [split, List.map_append, List.nodup_append] at distinct
    have ne := distinct.2.2 p.1 (List.mem_map_of_mem hp) x (by simp)
    simpa using Ne.symm ne

theorem Paired.lt (paired : arena.Paired) (h : arena.find? x = some k) :
    k < arena.nodes.length := by
  have mem := List.mem_map_of_mem (f := Prod.snd) (paired.find?_iff.mp h)
  rw [paired.nodes] at mem
  exact List.mem_range.mp mem

/-- Distinct tensors have distinct nodes. -/
theorem Paired.distinct (paired : arena.Paired) (hx : arena.find? x = some k)
    (hy : arena.find? y = some k) : x = y := by
  have nodup : (arena.bindings.map Prod.snd).Nodup := paired.nodes ▸ List.nodup_range
  have same := List.inj_on_of_nodup_map nodup (paired.find?_iff.mp hx) (paired.find?_iff.mp hy) rfl
  exact congrArg Prod.fst same

/-- Each node is bound to a tensor. -/
theorem Paired.exists_tensor (paired : arena.Paired) (lt : k < arena.nodes.length) :
    ∃ x, arena.find? x = some k := by
  have mem : k ∈ arena.bindings.map Prod.snd := paired.nodes ▸ List.mem_range.mpr lt
  obtain ⟨⟨x, k'⟩, found, rfl⟩ := List.mem_map.mp mem
  exact ⟨x, paired.find?_iff.mpr found⟩

theorem Paired.empty : (Arena.empty : Arena α).Paired := ⟨.nil, rfl⟩

theorem Paired.add (paired : arena.Paired) (unbound : arena.find? x = none) (n : Node α) :
    (arena.add x n).Paired where
  tensors := by
    have fresh := find?_eq_none_iff.mp unbound
    simp only [Arena.add, List.map_append, List.map_cons, List.map_nil]
    rw [← List.concat_eq_append]
    exact paired.tensors.concat fresh
  nodes := by
    simp only [Arena.add, List.map_append, List.map_cons, List.map_nil, List.length_append,
      List.length_singleton, List.range_succ, paired.nodes]

theorem Extends.refl (a : Arena α) : a.Extends a where
  nodes := List.prefix_rfl
  keep := fun _ _ h => h
  new := fun _ _ h => .inl h

theorem Extends.trans (h : a.Extends b) (h' : b.Extends c) : a.Extends c where
  nodes := h.nodes.trans h'.nodes
  keep := fun x k found => h'.keep x k (h.keep x k found)
  new := by
    intro x k found
    rcases h'.new x k found with found | le
    · exact h.new x k found
    · exact .inr (le_trans h.nodes.length_le le)

theorem extends_add (arena : Arena α) (x : TensorId) (n : Node α) :
    arena.Extends (arena.add x n) where
  nodes := List.prefix_append _ _
  keep := by
    intro y k found
    rw [find?_add, found]
    rfl
  new := by
    intro y k found
    rw [find?_add] at found
    rcases Option.or_eq_some_iff.mp found with found | ⟨-, found⟩
    · exact .inl found
    · split at found
      · cases found
        exact .inr le_rfl
      · cases found

/-- A node of an arena that grew is one from before or a new one. -/
theorem Extends.getElem? (h : a.Extends b) (hn : b.nodes[k]? = some n) :
    a.nodes[k]? = some n ∨ a.nodes.length ≤ k := by
  obtain ⟨more, eq⟩ := h.nodes
  rcases Nat.lt_or_ge k a.nodes.length with lt | le
  · rw [← eq, List.getElem?_append_left lt] at hn
    exact .inl hn
  · exact .inr le

/-- What is bound to a node from before was bound to it before. -/
theorem Extends.find?_of_lt (h : a.Extends b) (found : b.find? x = some k)
    (lt : k < a.nodes.length) : a.find? x = some k :=
  (h.new x k found).resolve_right (Nat.not_le_of_lt lt)

theorem getElem?_add_length (arena : Arena α) (x : TensorId) (n : Node α) :
    (arena.add x n).nodes[arena.nodes.length]? = some n :=
  List.getElem?_concat_length

end Arena

/-! ### Graphs -/

/-- An element of a list with one more element at its end. -/
theorem getElem?_concat_iff {β : Type} {xs : List β} {b c : β} {i : Nat} :
    (xs ++ [b])[i]? = some c ↔ xs[i]? = some c ∨ i = xs.length ∧ c = b := by
  rcases lt_trichotomy i xs.length with lt | rfl | gt
  · rw [List.getElem?_append_left lt]
    simp [Nat.ne_of_lt lt]
  · simp [eq_comm]
  · have outside : (xs ++ [b]).length ≤ i := by
      rw [List.length_append]
      exact gt
    rw [List.getElem?_eq_none outside, List.getElem?_eq_none (Nat.le_of_lt gt)]
    simp [Nat.ne_of_gt gt]

/-- A build as a graph: its nodes as they are fixed, its expressions, its input, and which node is
bound to which tensor. -/
structure Graph (α : Type) where
  nodes : List Node.Profile
  expressions : List (Expression α)
  /-- The declared input, and its node. -/
  declared : TensorId
  input : NodeId
  nodeOf : TensorId → Option NodeId

def Recording.graph (r : Recording α) : Graph α where
  nodes := r.arena.nodes.profiles
  expressions := r.expressions
  declared := r.input
  input := r.inputNode
  nodeOf := r.arena.find?

namespace Graph

/-- The tensor is the result of this expression. -/
def Gives (g : Graph α) (x : TensorId) (j : ExpressionId) : Prop :=
  ∃ e, g.expressions[j]? = some e ∧ g.nodeOf x = some e.result

/-- This expression is the first one that uses the node as an argument. -/
def FirstUse (es : List (Expression α)) (j : ExpressionId) (k : NodeId) : Prop :=
  (∃ e, es[j]? = some e ∧ k ∈ e.term.arguments) ∧
    ∀ i e, es[i]? = some e → k ∈ e.term.arguments → j ≤ i

/-- The node is the result of this expression and of no other one. -/
def OnlyResult (es : List (Expression α)) (j : ExpressionId) (k : NodeId) : Prop :=
  (∃ e, es[j]? = some e ∧ e.result = k) ∧ ∀ i e, es[i]? = some e → e.result = k → i = j

/-- The node is the result of no expression. -/
def NoResult (es : List (Expression α)) (k : NodeId) : Prop := ∀ e ∈ es, e.result ≠ k

/-- What the origin of a node with number `k`, bound to the tensor `x`, says: a leaf is a constant
from its first use on, a result comes from one expression, and a carried node was a result of the
build that was ended last. -/
def Kind (last : Option (Recording α)) (es : List (Expression α)) (x : TensorId) (k : NodeId)
    (n : Node.Profile) : Prop :=
  match n.origin with
  | .leaf j => n.constant = true ∧ FirstUse es j k ∧ NoResult es k ∧
      ∀ r ∈ last, ∀ i, ¬ r.graph.Gives x i
  | .result j => n.constant = false ∧ OnlyResult es j k
  | .carried j => n.constant = false ∧ NoResult es k ∧
      ∃ r ∈ last, r.graph.Gives x j ∧ n.build = r.build

/-- The graph of a build that began when `last` was the build that was ended last. -/
structure Built (last : Option (Recording α)) (g : Graph α) : Prop where
  /-- Nodes are numbered by position. -/
  numbered : ∀ (k : NodeId) (n : Node.Profile), g.nodes[k]? = some n → n.id = k
  /-- Distinct tensors have distinct nodes. -/
  distinct : ∀ x y k, g.nodeOf x = some k → g.nodeOf y = some k → x = y
  /-- Expressions are numbered by position. -/
  positions : ∀ (j : ExpressionId) (e : Expression α), g.expressions[j]? = some e → e.id = j
  inside : ∀ e ∈ g.expressions,
    (∀ a ∈ e.term.arguments, a < g.nodes.length) ∧ e.result < g.nodes.length
  /-- Node 0 is the declared input, no constant and no result. -/
  input : g.input = 0 ∧ g.nodeOf g.declared = some 0 ∧
    (∃ n, g.nodes[0]? = some n ∧ n.constant = false) ∧ NoResult g.expressions 0
  /-- Every other node is a constant, a result or a carried one, as its origin says. -/
  kinds : ∀ k n, g.nodes[k]? = some n → k ≠ 0 →
    ∃ x, g.nodeOf x = some k ∧ Kind last g.expressions x k n
  /-- What is neither the input nor a result of this build is a constant exactly if its tensor is no
  result of the build that was ended last: so are the results of older and of discarded builds. -/
  constants : ∀ x k n, g.nodeOf x = some k → g.nodes[k]? = some n → k ≠ 0 →
    NoResult g.expressions k → (n.constant = true ↔ ∀ r ∈ last, ∀ j, ¬ r.graph.Gives x j)
  /-- No expression uses the result of itself or of a later one. -/
  topological : ∀ (i j : ExpressionId) (e e' : Expression α), g.expressions[i]? = some e →
    g.expressions[j]? = some e' → i ≤ j → e'.result ∉ e.term.arguments

variable {last : Option (Recording α)} {es : List (Expression α)} {e : Expression α} {x : TensorId}
  {k : NodeId} {n : Node.Profile}

theorem NoResult.concat (h : NoResult es k) (ne : e.result ≠ k) : NoResult (es ++ [e]) k := by
  intro e' he'
  rcases List.mem_append.mp he' with he' | he'
  · exact h e' he'
  · cases List.mem_singleton.mp he'
    exact ne

/-- One more expression, with another result, leaves what a node is. -/
theorem Kind.concat (h : Kind last es x k n) (ne : e.result ≠ k) :
    Kind last (es ++ [e]) x k n := by
  unfold Kind at h ⊢
  split at h
  · obtain ⟨const, ⟨⟨e₀, at₀, uses⟩, least⟩, none, older⟩ := h
    refine ⟨const, ⟨⟨e₀, getElem?_concat_iff.mpr (.inl at₀), uses⟩, ?_⟩, none.concat ne, older⟩
    intro i e' hi uses'
    rcases getElem?_concat_iff.mp hi with hi | ⟨rfl, -⟩
    · exact least i e' hi uses'
    · exact le_of_lt (List.getElem?_eq_some_iff.mp at₀).1
  · obtain ⟨plain, ⟨e₀, at₀, gives⟩, only⟩ := h
    refine ⟨plain, ⟨e₀, getElem?_concat_iff.mpr (.inl at₀), gives⟩, ?_⟩
    intro i e' hi gives'
    rcases getElem?_concat_iff.mp hi with hi | ⟨-, rfl⟩
    · exact only i e' hi gives'
    · exact absurd gives' ne
  · obtain ⟨plain, none, carried⟩ := h
    exact ⟨plain, none.concat ne, carried⟩

/-- A node that is no result is a constant exactly if its tensor is no result of the build that was
ended last. -/
theorem Kind.constant_iff (h : Kind last es x k n) (none : NoResult es k) :
    n.constant = true ↔ ∀ r ∈ last, ∀ j, ¬ r.graph.Gives x j := by
  unfold Kind at h
  split at h
  · obtain ⟨const, -, -, older⟩ := h
    exact ⟨fun _ => older, fun _ => const⟩
  · obtain ⟨-, ⟨e, at₀, gives⟩, -⟩ := h
    exact absurd gives (none e (List.mem_of_getElem? at₀))
  · rename_i j _
    obtain ⟨plain, -, r, hr, given, -⟩ := h
    constructor
    · intro const
      rw [plain] at const
      cases const
    · intro older
      exact absurd given (older r hr j)

end Graph

/-! ### What recording a term does -/

namespace Recording

/-- The node for an argument that is not bound: a carried one if it is a result of the build
before, and a constant otherwise. -/
def leaf (r : Recording α) (previous : Option Predecessor) (x : Operand α) (k : NodeId) : Node α :=
  let carried := do
    let p ← previous
    let source ← p.results.lookup x.id
    some (p.build, source)
  match carried with
  | some (build, source) => .create k x.tensor false build (.carried source)
  | none => .create k x.tensor true r.build (.leaf r.expressions.length)

/-- The recording with a node for an argument that was not bound. -/
def bindLeaf (r : Recording α) (previous : Option Predecessor) (x : Operand α) : Recording α :=
  { r with arena := r.arena.add x.id (r.leaf previous x r.arena.nodes.length) }

theorem bindArgument_cases (r : Recording α) (previous : Option Predecessor) (x : Operand α) :
    (∃ k, r.arena.find? x.id = some k ∧ r.bindArgument previous x = (r, k)) ∨
      r.arena.find? x.id = none ∧
        r.bindArgument previous x = (r.bindLeaf previous x, r.arena.nodes.length) := by
  unfold bindArgument bindLeaf leaf
  cases carried : (do
      let p ← previous
      let source ← p.results.lookup x.id
      some (p.build, source) : Option (Nat × ExpressionId)) with
  | some found =>
      rcases r.arena.define_cases x false found.1 (.carried found.2) with
        ⟨k, bound, eq⟩ | ⟨unbound, eq⟩
      · refine .inl ⟨k, bound, ?_⟩
        simp only [eq]
      · refine .inr ⟨unbound, ?_⟩
        simp only [eq]
        rfl
  | none =>
      rcases r.arena.define_cases x true r.build (.leaf r.expressions.length) with
        ⟨k, bound, eq⟩ | ⟨unbound, eq⟩
      · refine .inl ⟨k, bound, ?_⟩
        simp only [eq]
      · refine .inr ⟨unbound, ?_⟩
        simp only [eq]
        rfl

/-- The recording `s` is `r` with nodes for those of the tensors `xs` that were not bound. -/
structure Binds (previous : Option Predecessor) (xs : List (Operand α)) (r s : Recording α) :
    Prop where
  same : s = { r with arena := s.arena }
  grown : r.arena.Extends s.arena
  paired : s.arena.Paired
  fresh : ∀ k n, r.arena.nodes.length ≤ k → s.arena.nodes[k]? = some n →
    ∃ x ∈ xs, s.arena.find? x.id = some k ∧ n = r.leaf previous x k

variable {previous : Option Predecessor} {xs : List (Operand α)} {r s s' : Recording α}
  {x : Operand α} {k : NodeId}

theorem Binds.refl (paired : r.arena.Paired) : Binds previous xs r r where
  same := rfl
  grown := .refl _
  paired := paired
  fresh := by
    intro k n le hn
    rw [List.getElem?_eq_none le] at hn
    cases hn

theorem Binds.bindLeaf (h : Binds previous xs r s) (hx : x ∈ xs)
    (unbound : s.arena.find? x.id = none) : Binds previous xs r (s.bindLeaf previous x) where
  same := by
    rw [Recording.bindLeaf, h.same]
  grown := h.grown.trans (Arena.extends_add _ _ _)
  paired := h.paired.add unbound _
  fresh := by
    intro k n le hn
    rcases getElem?_concat_iff.mp hn with old | ⟨rfl, rfl⟩
    · obtain ⟨y, hy, found, eq⟩ := h.fresh k n le old
      exact ⟨y, hy, (Arena.extends_add _ _ _).keep _ _ found, eq⟩
    · refine ⟨x, hx, ?_, ?_⟩
      · simp only [Recording.bindLeaf]
        rw [Arena.find?_add, unbound]
        simp
      · rw [h.same]
        rfl

/-- Binding an argument adds a node for it, if it was not bound, and answers its node. -/
theorem Binds.bindArgument (h : Binds previous xs r s) (hx : x ∈ xs)
    (bound : s.bindArgument previous x = (s', k)) :
    Binds previous xs r s' ∧ s.arena.Extends s'.arena ∧ s'.arena.find? x.id = some k := by
  rcases s.bindArgument_cases previous x with ⟨j, found, eq⟩ | ⟨unbound, eq⟩
  · rw [eq] at bound
    cases bound
    exact ⟨h, .refl _, found⟩
  · rw [eq] at bound
    cases bound
    refine ⟨h.bindLeaf hx unbound, Arena.extends_add _ _ _, ?_⟩
    simp only [Recording.bindLeaf]
    rw [Arena.find?_add, unbound]
    simp

/-- The node of a tensor that is bound. -/
def nodeOf (r : Recording α) (x : Operand α) : NodeId := (r.arena.find? x.id).getD 0

theorem nodeOf_eq (h : r.arena.find? x.id = some k) : r.nodeOf x = k := by
  simp [nodeOf, h]

/-- Binding the arguments of a term puts their nodes for them. -/
theorem Binds.bindTerm (paired : r.arena.Paired) {term : Term α (Operand α)} {t : Term α NodeId}
    (h : r.bindTerm previous term = (s, t)) :
    Binds previous term.arguments r s ∧ t = term.map s.nodeOf ∧
      ∀ x ∈ term.arguments, s.arena.find? x.id = some (s.nodeOf x) := by
  have start : Binds previous term.arguments r r := .refl paired
  cases term with
  | unary f x =>
      cases hx : r.bindArgument previous x with
      | mk s₁ j =>
          simp only [Recording.bindTerm, hx] at h
          cases h
          obtain ⟨binds, -, found⟩ := start.bindArgument (x := x) List.mem_cons_self hx
          refine ⟨binds, by rw [Term.map, nodeOf_eq found], fun y hy => ?_⟩
          cases List.mem_singleton.mp hy
          exact found.trans (congrArg some (nodeOf_eq found).symm)
  | binary f x c | arithmetic f x c =>
      cases hx : r.bindArgument previous x with
      | mk s₁ j =>
          cases hc : s₁.bindArgument previous c with
          | mk s₂ k =>
              simp only [Recording.bindTerm, hx, hc] at h
              cases h
              obtain ⟨binds₁, -, before⟩ := start.bindArgument (x := x) List.mem_cons_self hx
              obtain ⟨binds, grown, found⟩ :=
                binds₁.bindArgument (List.mem_cons_of_mem _ List.mem_cons_self) hc
              have found₁ := grown.keep _ _ before
              refine ⟨binds, by rw [Term.map, nodeOf_eq found, nodeOf_eq found₁], fun y hy => ?_⟩
              rcases List.mem_cons.mp hy with rfl | hy
              · exact found₁.trans (congrArg some (nodeOf_eq found₁).symm)
              · cases List.mem_singleton.mp hy
                exact found.trans (congrArg some (nodeOf_eq found).symm)

/-- The recording `r` with the next expression, over the nodes of `s`, and its result behind them. -/
def adding (r s : Recording α) (term : Term α (Operand α)) (result : Operand α) : Recording α :=
  { r with
    arena := s.arena.add result.id (.create s.arena.nodes.length result.tensor false r.build
      (.result r.expressions.length))
    expressions := r.expressions ++
      [⟨r.expressions.length, term.map s.nodeOf, s.arena.nodes.length⟩]
    results := r.results ++ [(result.id, r.expressions.length)] }

theorem extends_adding (r s : Recording α) (term : Term α (Operand α)) (result : Operand α) :
    s.arena.Extends (r.adding s term result).arena :=
  Arena.extends_add _ _ _

/-- The recording `s` is `r` with the arguments of the term bound, and the result is bound in
neither. -/
structure Adds (previous : Option Predecessor) (term : Term α (Operand α)) (result : Operand α)
    (r s : Recording α) : Prop where
  binds : Binds previous term.arguments r s
  found : ∀ x ∈ term.arguments, s.arena.find? x.id = some (s.nodeOf x)
  new : r.arena.find? result.id = none
  unbound : s.arena.find? result.id = none

section Adds

variable {term : Term α (Operand α)} {result : Operand α}

theorem Adds.paired (adds : Adds previous term result r s) :
    (r.adding s term result).arena.Paired :=
  adds.binds.paired.add adds.unbound _

theorem Adds.grown (adds : Adds previous term result r s) :
    r.arena.Extends (r.adding s term result).arena :=
  adds.binds.grown.trans (extends_adding r s term result)

/-- The result is bound to a node behind all others. -/
theorem Adds.bound (adds : Adds previous term result r s) :
    (r.adding s term result).arena.find? result.id = some s.arena.nodes.length := by
  unfold adding
  rw [Arena.find?_add, adds.unbound, if_pos rfl]
  rfl

end Adds

/-- Recording a term binds its arguments, then its result to a node behind all others, and adds one
expression over these nodes. -/
theorem record_ok (paired : r.arena.Paired) {term : Term α (Operand α)} {result : Operand α}
    {r' : Recording α} {id : ExpressionId} (h : r.record previous term result = .ok (r', id)) :
    id = r.expressions.length ∧
      ∃ s, Adds previous term result r s ∧ r' = r.adding s term result := by
  unfold record at h
  obtain ⟨⟨⟩, checked, h⟩ := bind_ok_iff.mp h
  unfold checkResult at checked
  split at checked
  · cases checked
  rename_i fresh
  split at checked
  · cases checked
  rename_i unbound
  have unbound : r.arena.find? result.id = none := by simpa [Arena.binds] using unbound
  cases bound : r.bindTerm previous term with
  | mk s t =>
      rw [bound] at h
      cases h
      obtain ⟨binds, rfl, found⟩ := Binds.bindTerm paired bound
      have unbound' : s.arena.find? result.id = none := by
        cases there : s.arena.find? result.id with
        | none => rfl
        | some k =>
            -- The result would have been bound as an argument.
            rcases binds.grown.new _ _ there with old | le
            · rw [unbound] at old
              cases old
            · have lt := binds.paired.lt there
              obtain ⟨x, hx, found, -⟩ := binds.fresh k _ le (List.getElem?_eq_getElem lt)
              have same : x.id = result.id := binds.paired.distinct found there
              exact absurd (List.mem_map.mpr ⟨x, hx, same⟩) fresh
      have same := binds.same
      refine ⟨congrArg (·.expressions.length) same, s, ⟨binds, found, unbound, unbound'⟩, ?_⟩
      simp only [push, adding, Arena.define, unbound', Arena.add]
      rw [same]

end Recording

end GradientReplay
