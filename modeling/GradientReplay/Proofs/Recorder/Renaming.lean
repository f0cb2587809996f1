import GradientReplay.Proofs.Recorder.Links

/-!
Recordings of one sequence of terms over different tensors.

If two builds see the same terms under two names for the tensors, and the names agree on which
tensors are the same and from which place of the build before each was carried over, the builds have
the same expressions over nodes of the same kinds, whatever the tensors hold
(`Recording.Matches.record`). So they have the same links and the same order back
(`Recording.Matches.outline`).
-/

namespace GradientReplay

variable {α ν : Type} {σ σ' : ν → TensorId}

/-- What kind of node it is, and where it comes from. -/
def Node.kind (n : Node α) : Bool × Origin ExpressionId := (n.constant, n.origin)

/-- The two names agree on which tensors are the same. -/
def SameTensors (σ σ' : ν → TensorId) : Prop := ∀ x y, σ x = σ y ↔ σ' x = σ' y

/-- The expression of the build before that a tensor is the result of. -/
def sourceOf (previous : Option Predecessor) (x : TensorId) : Option ExpressionId :=
  previous.bind (·.results.lookup x)

/-- The two names agree on where tensors were carried over from. -/
def SameSources (previous previous' : Option Predecessor) (σ σ' : ν → TensorId) : Prop :=
  ∀ x, sourceOf previous' (σ' x) = sourceOf previous (σ x)

namespace Term

variable {κ μ : Type} {g : κ → μ} {u : Term α κ} {x c : μ}

theorem map_eq_unary {f : UnaryFunction α} (h : u.map g = .unary f x) :
    ∃ y, u = .unary f y ∧ g y = x := by
  cases u with
  | unary g' y =>
      cases h
      exact ⟨y, rfl, rfl⟩
  | binary | arithmetic => cases h

theorem map_eq_binary {f : BinaryFunction α} (h : u.map g = .binary f x c) :
    ∃ y z, u = .binary f y z ∧ g y = x ∧ g z = c := by
  cases u with
  | binary g' y z =>
      cases h
      exact ⟨y, z, rfl, rfl, rfl⟩
  | unary | arithmetic => cases h

theorem map_eq_arithmetic {f : Arithmetic} (h : u.map g = .arithmetic f x c) :
    ∃ y z, u = .arithmetic f y z ∧ g y = x ∧ g z = c := by
  cases u with
  | arithmetic g' y z =>
      cases h
      exact ⟨y, z, rfl, rfl, rfl⟩
  | unary | binary => cases h

end Term

theorem produced_iff_sourceOf {previous : Option Predecessor} {x : TensorId} :
    previous.any (·.produced x) = true ↔ (sourceOf previous x).isSome = true := by
  cases previous <;> rfl

/-! ### Arenas -/

/-- Two arenas have nodes of the same kinds, and these have the same names. -/
structure Arena.Matches (σ σ' : ν → TensorId) (a a' : Arena α) : Prop where
  kinds : a'.nodes.map Node.kind = a.nodes.map Node.kind
  found : ∀ x, a'.find? (σ' x) = a.find? (σ x)

theorem Arena.Matches.length {a a' : Arena α} (h : a.Matches σ σ' a') :
    a'.nodes.length = a.nodes.length := by
  have lengths := congrArg List.length h.kinds
  simpa using lengths

/-- Defining a node under one name in both arenas finds or adds one of the same kind. -/
theorem Arena.Matches.define {a a' : Arena α} (h : a.Matches σ σ' a') (same : SameTensors σ σ')
    {x : ν} {y y' : Operand α} (hy : y.id = σ x) (hy' : y'.id = σ' x) (constant : Bool)
    (build build' : Nat) (origin : Origin ExpressionId) :
    (a.define y constant build origin).1.Matches σ σ' (a'.define y' constant build' origin).1 ∧
      (a'.define y' constant build' origin).2 = (a.define y constant build origin).2 := by
  have found := h.found x
  rw [← hy, ← hy'] at found
  rcases a.define_cases y constant build origin with ⟨k, bound, eq⟩ | ⟨unbound, eq⟩ <;>
    rcases a'.define_cases y' constant build' origin with ⟨k', bound', eq'⟩ | ⟨unbound', eq'⟩
  · rw [eq, eq']
    rw [bound, bound'] at found
    exact ⟨h, Option.some.inj found⟩
  · rw [bound, unbound'] at found
    cases found
  · rw [unbound, bound'] at found
    cases found
  · rw [eq, eq', h.length]
    refine ⟨⟨?_, fun z => ?_⟩, rfl⟩
    · simp only [List.map_append, List.map_cons, List.map_nil, h.kinds]
      rfl
    · simp only [find?_append, h.found z, hy, hy', same z x]

namespace Recording

/-! ### Recordings -/

/-- Two builds have the same expressions, over nodes of the same kinds and names. -/
structure Matches (σ σ' : ν → TensorId) (r r' : Recording α) : Prop where
  expressions : r'.expressions = r.expressions
  arena : r.arena.Matches σ σ' r'.arena

variable {r r' r₁ r₁' : Recording α} {previous previous' : Option Predecessor}

theorem Matches.start {build build' : Nat} {input input' : Operand α} (same : SameTensors σ σ')
    {x : ν} (h : input.id = σ x) (h' : input'.id = σ' x) :
    (start build input).Matches σ σ' (start build' input') where
  expressions := rfl
  arena :=
    have empty : (Arena.empty : Arena α).Matches σ σ' (Arena.empty : Arena α) :=
      ⟨rfl, fun _ => rfl⟩
    (empty.define same h h' false build build' (.leaf 0)).1

/-- A result of the build before is bound as a carried node. -/
theorem bindArgument_of_source {y : Operand α} {j : ExpressionId}
    (source : sourceOf previous y.id = some j) :
    ∃ build, r.bindArgument previous y =
      ({ r with arena := (r.arena.define y false build (.carried j)).1 },
        (r.arena.define y false build (.carried j)).2) := by
  cases previous with
  | none => cases source
  | some p =>
      have looked : p.results.lookup y.id = some j := source
      exact ⟨p.build, by simp [Recording.bindArgument, looked]⟩

/-- Any other tensor is bound as a constant. -/
theorem bindArgument_of_no_source {y : Operand α} (source : sourceOf previous y.id = none) :
    r.bindArgument previous y =
      ({ r with arena := (r.arena.define y true r.build (.leaf r.expressions.length)).1 },
        (r.arena.define y true r.build (.leaf r.expressions.length)).2) := by
  cases previous with
  | none => rfl
  | some p =>
      have looked : p.results.lookup y.id = none := source
      simp [Recording.bindArgument, looked]

section Same

variable (same : SameTensors σ σ') (sources : SameSources previous previous' σ σ')

include same sources

/-- Binding an argument under one name in both builds binds it to one node. -/
theorem Matches.bindArgument (h : r.Matches σ σ' r') {x : ν} {y y' : Operand α}
    (hy : y.id = σ x) (hy' : y'.id = σ' x) :
    (r.bindArgument previous y).1.Matches σ σ' (r'.bindArgument previous' y').1 ∧
      (r'.bindArgument previous' y').2 = (r.bindArgument previous y).2 := by
  have source := sources x
  rw [← hy, ← hy'] at source
  cases carried : sourceOf previous y.id with
  | some j =>
      rw [carried] at source
      obtain ⟨build, eq⟩ := bindArgument_of_source (r := r) carried
      obtain ⟨build', eq'⟩ := bindArgument_of_source (r := r') source
      obtain ⟨arena, node⟩ := h.arena.define same hy hy' false build build' (.carried j)
      rw [eq, eq']
      exact ⟨⟨h.expressions, arena⟩, node⟩
  | none =>
      rw [carried] at source
      rw [bindArgument_of_no_source carried, bindArgument_of_no_source source, h.expressions]
      obtain ⟨arena, node⟩ :=
        h.arena.define same hy hy' true r.build r'.build (.leaf r.expressions.length)
      exact ⟨⟨rfl, arena⟩, node⟩

/-- Binding two arguments, one after the other. -/
theorem Matches.bindTwo (h : r.Matches σ σ' r') {x c : ν} {y y' z z' : Operand α}
    (hy : y.id = σ x) (hy' : y'.id = σ' x) (hz : z.id = σ c) (hz' : z'.id = σ' c) :
    let s := r.bindArgument previous y
    let s' := r'.bindArgument previous' y'
    (s.1.bindArgument previous z).1.Matches σ σ' (s'.1.bindArgument previous' z').1 ∧
      s'.2 = s.2 ∧ (s'.1.bindArgument previous' z').2 = (s.1.bindArgument previous z).2 := by
  obtain ⟨first, node⟩ := h.bindArgument same sources hy hy'
  obtain ⟨second, node'⟩ := first.bindArgument same sources hz hz'
  exact ⟨second, node, node'⟩

/-- Binding the arguments of a term puts the same nodes for them. -/
theorem Matches.bindTerm (h : r.Matches σ σ' r') {t : Term α ν} {u u' : Term α (Operand α)}
    (hu : u.map (·.id) = t.map σ) (hu' : u'.map (·.id) = t.map σ') :
    (r.bindTerm previous u).1.Matches σ σ' (r'.bindTerm previous' u').1 ∧
      (r'.bindTerm previous' u').2 = (r.bindTerm previous u).2 := by
  cases t with
  | unary f x =>
      obtain ⟨y, rfl, hy⟩ := Term.map_eq_unary hu
      obtain ⟨y', rfl, hy'⟩ := Term.map_eq_unary hu'
      obtain ⟨bound, node⟩ := h.bindArgument same sources hy hy'
      exact ⟨bound, congrArg (Term.unary f) node⟩
  | binary f x c =>
      obtain ⟨y, z, rfl, hy, hz⟩ := Term.map_eq_binary hu
      obtain ⟨y', z', rfl, hy', hz'⟩ := Term.map_eq_binary hu'
      obtain ⟨bound, first, second⟩ := h.bindTwo same sources hy hy' hz hz'
      exact ⟨bound, congrArg₂ (Term.binary f) first second⟩
  | arithmetic f x c =>
      obtain ⟨y, z, rfl, hy, hz⟩ := Term.map_eq_arithmetic hu
      obtain ⟨y', z', rfl, hy', hz'⟩ := Term.map_eq_arithmetic hu'
      obtain ⟨bound, first, second⟩ := h.bindTwo same sources hy hy' hz hz'
      exact ⟨bound, congrArg₂ (Term.arithmetic f) first second⟩

omit sources in
/-- Adding an expression with a result under one name. -/
theorem Matches.push (h : r.Matches σ σ' r') (t : Term α NodeId) {x : ν} {y y' : Operand α}
    (hy : y.id = σ x) (hy' : y'.id = σ' x) : (r.push t y).Matches σ σ' (r'.push t y') := by
  obtain ⟨arena, node⟩ :=
    h.arena.define same hy hy' false r.build r'.build (.result r.expressions.length)
  constructor
  · simp only [Recording.push, h.expressions, node]
  · simp only [Recording.push, h.expressions]
    exact arena

/-- Recording a term under the two names makes builds of the same expressions. -/
theorem Matches.record (h : r.Matches σ σ' r') {t : Term α ν} {u u' : Term α (Operand α)}
    (hu : u.map (·.id) = t.map σ) (hu' : u'.map (·.id) = t.map σ') {x : ν} {y y' : Operand α}
    (hy : y.id = σ x) (hy' : y'.id = σ' x) {id id' : ExpressionId}
    (recorded : r.record previous u y = .ok (r₁, id))
    (recorded' : r'.record previous' u' y' = .ok (r₁', id')) : r₁.Matches σ σ' r₁' := by
  obtain ⟨bound, nodes⟩ := h.bindTerm same sources hu hu'
  obtain ⟨⟨⟩, -, eq⟩ := bind_ok_iff.mp recorded
  obtain ⟨⟨⟩, -, eq'⟩ := bind_ok_iff.mp recorded'
  cases hs : r.bindTerm previous u with
  | mk s v =>
      cases hs' : r'.bindTerm previous' u' with
      | mk s' v' =>
          rw [hs] at eq
          rw [hs'] at eq'
          cases eq
          cases eq'
          rw [hs, hs'] at bound nodes
          cases nodes
          exact bound.push same v hy hy'

end Same

end Recording

/-! ### Compiled builds -/

theorem carriedFrom?_congr {nodes nodes' : Nodes α}
    (kinds : nodes'.map Node.kind = nodes.map Node.kind) (k : NodeId) :
    carriedFrom? nodes' k = carriedFrom? nodes k := by
  have origins : nodes'[k]?.map Node.origin = nodes[k]?.map Node.origin := by
    have same := congrArg (fun kinds => (kinds[k]?).map Prod.snd) kinds
    simp only [List.getElem?_map, Option.map_map] at same
    exact same
  unfold carriedFrom?
  rw [origins]

/-- Links depend on the kinds of nodes only. -/
theorem stateLinks_congr {nodes nodes' : Nodes α}
    (kinds : nodes'.map Node.kind = nodes.map Node.kind) (arities : List Nat)
    (es : List (Expression α)) : stateLinks arities nodes' es = stateLinks arities nodes es := by
  simp only [stateLinks, carriedArguments, carriedFrom?_congr kinds]

/-- What is fixed of a procedure, whatever the tensors of its build were. -/
structure Outline (α : Type) where
  expressions : List (Expression α)
  /-- Whether each node is a constant, and where it comes from. -/
  kinds : List (Bool × Origin ExpressionId)
  backward : List (Expression α)
  links : List (Link α)

def Procedure.outline (p : Procedure α) : Outline α :=
  ⟨p.forwardOrder, p.nodes.map Node.kind, p.backwardOrder, p.links⟩

/-- Builds of the same expressions with outputs under one name, seen against builds of the same
arities, compile to procedures of the same outline. -/
theorem Recording.Matches.outline {r r' : Recording α} (h : r.Matches σ σ' r') {x : ν}
    {k k' : NodeId} (found : r.arena.find? (σ x) = some k)
    (found' : r'.arena.find? (σ' x) = some k') {previous previous' : Predecessor}
    (arities : previous'.arities = previous.arities) (name name' : String)
    (constants constants' : List TensorId) :
    (Recorder.compile name' constants' previous' r' (σ' x) k').outline =
      (Recorder.compile name constants previous r (σ x) k).outline := by
  have node : k' = k := by
    have same := h.arena.found x
    rw [found, found'] at same
    exact Option.some.inj same
  simp only [Procedure.outline, Recorder.compile, h.expressions, h.arena.kinds, node, arities,
    stateLinks_congr h.arena.kinds]

end GradientReplay
