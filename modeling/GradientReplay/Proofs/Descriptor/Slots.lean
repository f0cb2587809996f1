import GradientReplay.Descriptor.Json
import GradientReplay.Proofs.Json.Fields
import Mathlib.Data.List.Nodup

/-!
What each object of a descriptor has to hold.

The tree of a descriptor has objects at six places (`Descriptor.Place`). At each of them an object
is read as a content exactly if nothing in it is out of place and its fields fill the slots of this
content (`Descriptor.Place.read?_object_iff`). Which slots a kind has depends on its tag; those of
the other records are always the same ones.
-/

namespace GradientReplay

open Json

variable {fields : List Field}

/-! ### Origins -/

def Origin.slots : Origin UInt64 → List Slot
  | .leaf e => [⟨"Leaf", none, toWord?, e⟩]
  | .result e => [⟨"Result", none, toWord?, e⟩]
  | .carried e => [⟨"Carried", none, toWord?, e⟩]

theorem Origin.ofJson?_object_iff {origin : Origin UInt64} :
    Origin.ofJson? (.object fields) = some origin ↔
      (fields.length = 1 ∧ Keyed fields) ∧ ∀ s ∈ origin.slots, s.Filled fields := by
  rcases fields with _ | ⟨⟨_ | key, content⟩, _ | ⟨second, rest⟩⟩
  · simp [Origin.ofJson?]
  · simp [Origin.ofJson?, Keyed]
  · simp [Origin.ofJson?]
  · simp only [Origin.ofJson?]
    split
    · cases origin <;> simp [slots, Keyed, Slot.filled_iff, allNamed]
    · cases origin <;> simp [slots, Keyed, Slot.filled_iff, allNamed]
    · cases origin <;> simp [slots, Keyed, Slot.filled_iff, allNamed]
    · cases origin <;> simp_all [slots, Keyed, Slot.filled_iff, allNamed]
  · simp [Origin.ofJson?]

namespace Descriptor

/-! ### Kinds -/

/-- What the tag of a kind says. -/
def Kind.tag : Kind → String
  | .unary _ => "UnaryFunction"
  | .binary _ => "BinaryFunction"
  | .arithmetic operation => operation.name

/-- The slots besides the tag. -/
def Kind.ownSlots : Kind → List Slot
  | .unary function | .binary function => [⟨"function", none, toString?, function⟩]
  | .arithmetic _ => []

def Kind.slots (kind : Kind) : List Slot :=
  ⟨tagName, none, toString?, kind.tag⟩ :: kind.ownSlots

theorem Kind.ownSlots_name (kind : Kind) {s : Slot} (hs : s ∈ kind.ownSlots) :
    s.name ≠ tagName := by
  cases kind with
  | unary f | binary f =>
      rw [List.mem_singleton.mp hs]
      exact (by decide : "function" ≠ tagName)
  | arithmetic operation => cases hs

theorem arithmetic_ofName?_iff {tag : String} {operation : Arithmetic} :
    Arithmetic.ofName? tag = some operation ↔ tag = operation.name := by
  constructor
  · intro found
    rw [Arithmetic.ofName?] at found
    have same := List.find?_some found
    exact (beq_iff_eq.mp same).symm
  · rintro rfl
    cases operation <;> decide

/-- What an object gives as the label of a function. -/
def function? (fields : List Field) : Option String :=
  ((Json.object fields).record? ["function"]).bind (·.required 0 toString?)

theorem function?_eq_some_iff {function : String} (keyed : Keyed fields) :
    function? fields = some function ↔
      Slot.Filled ⟨"function", none, toString?, function⟩ fields := by
  refine (bind_record?_eq_some_iff [⟨"function", none, toString?, function⟩]
    fun single => ?_).trans ?_
  · rw [List.map_singleton, Record.required_ofFields _ rfl (single _ List.mem_cons_self)]
    simp [Slot.Filled]
  · simp [keyed]

/-- A tag of no function is that of an operation, whatever stands beside it in an object. -/
theorem Kind.ofTag?_arithmetic {tag : String} (unary : tag ≠ "UnaryFunction")
    (binary : tag ≠ "BinaryFunction") :
    Kind.ofTag? tag (.object fields) = (Arithmetic.ofName? tag).map .arithmetic := by
  unfold ofTag?
  split
  · contradiction
  · contradiction
  · cases Arithmetic.ofName? tag <;> rfl

theorem Kind.ofTag?_object_iff {kind : Kind} {tag : String} (keyed : Keyed fields) :
    Kind.ofTag? tag (.object fields) = some kind ↔
      tag = kind.tag ∧ ∀ s ∈ kind.ownSlots, s.Filled fields := by
  have function (f : String) : function? fields = some f ↔ _ := function?_eq_some_iff keyed
  by_cases unary : tag = "UnaryFunction"
  · subst unary
    have read : ofTag? "UnaryFunction" (.object fields) = (function? fields).map .unary := rfl
    cases kind with
    | unary f => simp [read, function, tag, ownSlots]
    | binary f => simp [read, tag]
    | arithmetic operation => cases operation <;> simp [read, tag, Arithmetic.name]
  by_cases binary : tag = "BinaryFunction"
  · subst binary
    have read : ofTag? "BinaryFunction" (.object fields) = (function? fields).map .binary := rfl
    cases kind with
    | unary f => simp [read, tag]
    | binary f => simp [read, function, tag, ownSlots]
    | arithmetic operation => cases operation <;> simp [read, tag, Arithmetic.name]
  rw [ofTag?_arithmetic unary binary]
  cases kind with
  | unary f => simp [Kind.tag, unary]
  | binary f => simp [Kind.tag, binary]
  | arithmetic operation => simp [arithmetic_ofName?_iff, Kind.tag, ownSlots]

/-- What may stand in a kind: it has to be meaningful, and not nested too deep. -/
def Kind.Admits (field : Field) : Prop :=
  field.1.isSome = true ∧ field.2.meaningful = true ∧ field.2.depth < maxKindDepth

theorem Kind.admits_iff : (∀ field ∈ fields, Kind.Admits field) ↔
    ((Json.object fields).meaningful && (Json.object fields).depth ≤ maxKindDepth) = true := by
  have shallow : (Json.object fields).depth ≤ maxKindDepth ↔
      ∀ field ∈ fields, field.2.depth < maxKindDepth := depth_object_le_iff (maxKindDepth - 1)
  rw [Bool.and_eq_true, decide_eq_true_iff, meaningful_object_iff, shallow, ← forall₂_and]
  simp only [Kind.Admits, and_assoc]

theorem Kind.ofJson?_object_iff {kind : Kind} :
    Kind.ofJson? (.object fields) = some kind ↔
      (∀ field ∈ fields, Kind.Admits field) ∧ ∀ s ∈ kind.slots, s.Filled fields := by
  rw [ofJson?, admits_iff]
  split
  · rename_i whole
    have keyed : Keyed fields := fun field hf => (admits_iff.mpr whole field hf).1
    have tagged : Slot.Filled ⟨tagName, none, toString?, kind.tag⟩ fields ↔
        ∃ content, field? fields tagName = some (some content) ∧
          content.toString? = some kind.tag := by
      simp [Slot.filled_iff, field?_eq_content_iff]
    have kept (s : Slot) (hs : s ∈ kind.ownSlots) : some s.name ≠ some tagName :=
      fun eq => kind.ownSlots_name hs (Option.some.inj eq)
    rw [slots, List.forall_mem_cons, tagged]
    simp only [Option.bind_eq_bind, Option.bind_eq_some_iff, ofTag?_object_iff (keyed.filter _)]
    constructor
    · rintro ⟨_, found, content, rfl, tag, read, rfl, filled⟩
      refine ⟨whole, ⟨content, found, read⟩, fun s hs => ?_⟩
      exact (Slot.filled_filter fun _ => decide_eq_true (kept s hs)).mp (filled s hs)
    · rintro ⟨-, ⟨content, found, read⟩, filled⟩
      refine ⟨_, found, content, rfl, _, read, rfl, fun s hs => ?_⟩
      exact (Slot.filled_filter fun _ => decide_eq_true (kept s hs)).mpr (filled s hs)
  · rename_i broken
    simp [broken]

/-- A tag that was read is the only one that stands there. -/
theorem mem_tag_iff {tag : String} (filled : Slot.Filled ⟨tagName, none, toString?, tag⟩ fields)
    (text : String) : (some tagName, ofString text) ∈ fields ↔ text = tag := by
  rcases Slot.filled_iff.mp filled with ⟨-, absent⟩ | ⟨content, one, decoded⟩
  · cases absent
  · have found : allNamed tagName fields = [content] := one
    rw [← mem_allNamed, found, List.mem_singleton]
    cases content with
    | string known =>
        obtain rfl : known = some tag := decoded
        simp [ofString]
    | _ => cases decoded

/-- A kind has a slot for its tag, and one for the label of a function if its tag is that of no
operation. -/
theorem Kind.exists_slot_iff {name : String} (kind : Kind) :
    (∃ s ∈ kind.slots, s.name = name) ↔ name = tagName ∨
      name = "function" ∧ ∀ operation : Arithmetic, operation.name ≠ kind.tag := by
  cases kind with
  | unary f | binary f =>
      have apart (operation : Arithmetic) :
          operation.name ≠ "UnaryFunction" ∧ operation.name ≠ "BinaryFunction" := by
        cases operation <;> decide
      simp [slots, ownSlots, tag, apart, eq_comm]
  | arithmetic operation =>
      have itself : ¬ ∀ other : Arithmetic, ¬ operation.name = other.name :=
        fun none => none operation rfl
      simp [slots, ownSlots, tag, itself, eq_comm]

/-! ### Entries -/

def NodeEntry.slots (n : NodeEntry) : List Slot :=
  [⟨"id", none, toWord?, n.id⟩, ⟨"shape", none, toList? toWord?, n.shape⟩,
    ⟨"constant", none, toBool?, n.constant⟩, ⟨"provenance", none, Origin.ofJson?, n.origin⟩]

theorem NodeEntry.ofJson?_object_iff {n : NodeEntry} :
    NodeEntry.ofJson? (.object fields) = some n ↔
      Keyed fields ∧ ∀ s ∈ n.slots, s.Filled fields := by
  refine bind_record?_eq_some_iff n.slots fun single => ?_
  simp only [slots, List.forall_mem_cons, List.map_cons, List.map_nil] at single ⊢
  obtain ⟨id, shape, constant, origin, -⟩ := single
  rw [Record.required_ofFields _ rfl id, Record.required_ofFields _ rfl shape,
    Record.required_ofFields _ rfl constant, Record.required_ofFields _ rfl origin]
  simp only [Slot.Filled, Option.bind_eq_bind, Option.bind_eq_some_iff, Option.some.injEq]
  constructor
  · rintro ⟨_, id, _, shape, _, constant, _, origin, rfl⟩
    exact ⟨id, shape, constant, origin, List.forall_mem_nil _⟩
  · rintro ⟨id, shape, constant, origin, -⟩
    exact ⟨_, id, _, shape, _, constant, _, origin, rfl⟩

def ExpressionEntry.slots (e : ExpressionEntry) : List Slot :=
  [⟨"id", none, toWord?, e.id⟩, ⟨"kind", none, Kind.ofJson?, e.kind⟩,
    ⟨"arg1", none, toWord?, e.first⟩, ⟨"arg2", some none, orNull toWord?, e.second⟩,
    ⟨"result", none, toWord?, e.result⟩]

theorem ExpressionEntry.ofJson?_object_iff {e : ExpressionEntry} :
    ExpressionEntry.ofJson? (.object fields) = some e ↔
      Keyed fields ∧ ∀ s ∈ e.slots, s.Filled fields := by
  refine bind_record?_eq_some_iff e.slots fun single => ?_
  simp only [slots, List.forall_mem_cons, List.map_cons, List.map_nil] at single ⊢
  obtain ⟨id, kind, first, second, result, -⟩ := single
  rw [Record.required_ofFields _ rfl id, Record.required_ofFields _ rfl kind,
    Record.required_ofFields _ rfl first, Record.nullable_ofFields _ rfl second,
    Record.required_ofFields _ rfl result]
  simp only [Slot.Filled, Option.bind_eq_bind, Option.bind_eq_some_iff, Option.some.injEq]
  constructor
  · rintro ⟨_, id, _, kind, _, first, _, second, _, result, rfl⟩
    exact ⟨id, kind, first, second, result, List.forall_mem_nil _⟩
  · rintro ⟨id, kind, first, second, result, -⟩
    exact ⟨_, id, _, kind, _, first, _, second, _, result, rfl⟩

def LinkEntry.slots (l : LinkEntry) : List Slot :=
  [⟨"producer", none, toWord?, l.producer⟩, ⟨"consumer", none, toWord?, l.consumer⟩]

theorem LinkEntry.ofJson?_object_iff {l : LinkEntry} :
    LinkEntry.ofJson? (.object fields) = some l ↔
      Keyed fields ∧ ∀ s ∈ l.slots, s.Filled fields := by
  refine bind_record?_eq_some_iff l.slots fun single => ?_
  simp only [slots, List.forall_mem_cons, List.map_cons, List.map_nil] at single ⊢
  obtain ⟨producer, consumer, -⟩ := single
  rw [Record.required_ofFields _ rfl producer, Record.required_ofFields _ rfl consumer]
  simp only [Slot.Filled, Option.bind_eq_bind, Option.bind_eq_some_iff, Option.some.injEq]
  constructor
  · rintro ⟨_, producer, _, consumer, rfl⟩
    exact ⟨producer, consumer, List.forall_mem_nil _⟩
  · rintro ⟨producer, consumer, -⟩
    exact ⟨_, producer, _, consumer, rfl⟩

/-! ### Descriptors -/

def slots (d : Descriptor) : List Slot :=
  [⟨"version", none, toString?, d.version⟩, ⟨"name", none, toString?, d.name⟩,
    ⟨"input", none, toWord?, d.input⟩, ⟨"output", none, toWord?, d.output⟩,
    ⟨"nodes", none, toList? NodeEntry.ofJson?, d.nodes⟩,
    ⟨"expressions", none, toList? ExpressionEntry.ofJson?, d.expressions⟩,
    ⟨"backward", none, toList? toWord?, d.backward⟩,
    ⟨"links", some [], toList? LinkEntry.ofJson?, d.links⟩]

theorem ofTree?_object_iff {d : Descriptor} :
    ofTree? (.object fields) = some d ↔ Keyed fields ∧ ∀ s ∈ d.slots, s.Filled fields := by
  refine bind_record?_eq_some_iff d.slots fun single => ?_
  simp only [slots, List.forall_mem_cons, List.map_cons, List.map_nil] at single ⊢
  obtain ⟨version, name, input, output, nodes, expressions, backward, links, -⟩ := single
  rw [Record.required_ofFields _ rfl version, Record.required_ofFields _ rfl name,
    Record.required_ofFields _ rfl input, Record.required_ofFields _ rfl output,
    Record.required_ofFields _ rfl nodes, Record.required_ofFields _ rfl expressions,
    Record.required_ofFields _ rfl backward, Record.defaulted_ofFields _ _ rfl links]
  simp only [Slot.Filled, Option.bind_eq_bind, Option.bind_eq_some_iff, Option.some.injEq]
  constructor
  · rintro ⟨_, version, _, name, _, input, _, output, _, nodes, _, expressions, _, backward,
      _, links, rfl⟩
    exact ⟨version, name, input, output, nodes, expressions, backward, links, List.forall_mem_nil _⟩
  · rintro ⟨version, name, input, output, nodes, expressions, backward, links, -⟩
    exact ⟨_, version, _, name, _, input, _, output, _, nodes, _, expressions, _, backward,
      _, links, rfl⟩

/-! ### Places -/

/-- Where an object stands in the tree of a descriptor. -/
inductive Place where
  | descriptor
  | node
  | origin
  | expression
  | kind
  | link
  deriving DecidableEq

namespace Place

/-- What an object at the place stands for. -/
def Content : Place → Type
  | descriptor => Descriptor
  | node => NodeEntry
  | origin => Origin UInt64
  | expression => ExpressionEntry
  | kind => Kind
  | link => LinkEntry

def read? : (p : Place) → Json → Option p.Content
  | descriptor => ofTree?
  | node => NodeEntry.ofJson?
  | origin => Origin.ofJson?
  | expression => ExpressionEntry.ofJson?
  | kind => Kind.ofJson?
  | link => LinkEntry.ofJson?

def slots : (p : Place) → p.Content → List Slot
  | descriptor => Descriptor.slots
  | node => NodeEntry.slots
  | origin => Origin.slots
  | expression => ExpressionEntry.slots
  | kind => Kind.slots
  | link => LinkEntry.slots

/-- May these fields stand at the place, if its slots are filled? -/
def Admits : Place → List Field → Prop
  | origin, fields => fields.length = 1 ∧ Keyed fields
  | kind, fields => ∀ field ∈ fields, Kind.Admits field
  | _, fields => Keyed fields

/-- An object is read as a content exactly if its fields fill the slots of the content. -/
theorem read?_object_iff {p : Place} {c : p.Content} :
    p.read? (.object fields) = some c ↔ p.Admits fields ∧ ∀ s ∈ p.slots c, s.Filled fields := by
  cases p with
  | descriptor => exact ofTree?_object_iff
  | node => exact NodeEntry.ofJson?_object_iff
  | origin => exact Origin.ofJson?_object_iff
  | expression => exact ExpressionEntry.ofJson?_object_iff
  | kind => exact Kind.ofJson?_object_iff
  | link => exact LinkEntry.ofJson?_object_iff

theorem slots_nodup (p : Place) (c : p.Content) : ((p.slots c).map (·.name)).Nodup := by
  cases p with
  | origin => cases c <;> simp [slots, Origin.slots]
  | kind => cases c <;> simp [slots, Kind.slots, Kind.ownSlots, tagName]
  | descriptor => simp [slots, Descriptor.slots]
  | node => simp [slots, NodeEntry.slots]
  | expression => simp [slots, ExpressionEntry.slots]
  | link => simp [slots, LinkEntry.slots]

/-- No two slots have one name. -/
theorem eq_of_name {p : Place} {c : p.Content} {s t : Slot} (hs : s ∈ p.slots c)
    (ht : t ∈ p.slots c) (same : s.name = t.name) : s = t :=
  List.inj_on_of_nodup_map (p.slots_nodup c) hs ht same

end Place

end Descriptor

end GradientReplay
