import GradientReplay.Descriptor.Json
import GradientReplay.Proofs.Json.RoundTrip

/-!
Descriptors survive being written and read.

Each part of a descriptor is decoded from its tree as it was (`Descriptor.ofTree?_toTree` and the
laws of the parts before it), and the tree of a descriptor has only whole numbers in it, so its text
is read as this tree (`Descriptor.ofJson?_toJson`). Hence no two descriptors have one text, and what
was read from any text is read again from the text written for it (`Descriptor.round_trip`).
-/

namespace GradientReplay

open Json

/-! ### Plain values -/

namespace Json

theorem toWord?_ofWord (n : UInt64) : (ofWord n).toWord? = some n := by
  have small : n.toNat < UInt64.size := n.toNat_lt
  change (if n.toNat < UInt64.size then some n.toNat.toUInt64 else none) = some n
  rw [if_pos small]
  exact congrArg some UInt64.ofNat_toNat

/-- A list is decoded if its items are. -/
theorem toList?_map {β : Type} {encode : β → Json} {decode : Json → Option β}
    (inverse : ∀ b, decode (encode b) = some b) (bs : List β) :
    toList? decode (.array (bs.map encode)) = some bs := by
  change (bs.map encode).mapM decode = some bs
  induction bs with
  | nil => rfl
  | cons b bs ih => simp [inverse, ih]

/-- A list of plain trees is plain. -/
theorem Plain.map {β : Type} {encode : β → Json} (plain : ∀ b, (encode b).Plain) (bs : List β) :
    (Json.array (bs.map encode)).Plain := by
  refine .array fun item hi => ?_
  obtain ⟨b, -, rfl⟩ := List.mem_map.mp hi
  exact plain b

/-- An object with plain fields is plain. -/
theorem Plain.ofFields {fields : List (String × Json)}
    (plain : ∀ field ∈ fields, field.2.Plain) : (Json.ofFields fields).Plain := by
  refine .object fun field hf => ?_
  obtain ⟨f, mem, rfl⟩ := List.mem_map.mp hf
  exact plain f mem

/-- A word is not null. -/
theorem Record.nullable_word {r : Record} {position : Nat} (n : UInt64)
    (there : r.values[position]? = some (some (ofWord n))) :
    r.nullable position toWord? = some (some n) := by
  rw [Record.nullable, there]
  exact congrArg (Option.map some) (toWord?_ofWord n)

theorem ofWord_plain (n : UInt64) : (ofWord n).Plain := .nat _

theorem ofString_plain (s : String) : (ofString s).Plain := .string _

end Json

/-! ### Origins -/

theorem Origin.ofJson?_toJson (origin : Origin UInt64) :
    Origin.ofJson? origin.toJson = some origin := by
  cases origin with
  | leaf e | result e | carried e => simp [toJson, ofFields, ofJson?, toWord?_ofWord]

theorem Origin.toJson_plain (origin : Origin UInt64) : origin.toJson.Plain := by
  cases origin with
  | leaf e | result e | carried e => exact .ofFields (by simp [ofWord_plain])

namespace Descriptor

/-! ### Kinds -/

theorem Kind.ofJson?_toJson (kind : Kind) : Kind.ofJson? kind.toJson = some kind := by
  cases kind with
  | unary function | binary function =>
      simp [toJson, Kind.ofJson?, ofFields, ofString, meaningful, meaningful.fieldsMeaningful, depth,
        depth.fieldsDepth, maxKindDepth, field?, allNamed, tagName, toString?, ofTag?, record?,
        Record.required]
  | arithmetic operation =>
      cases operation <;>
        simp [toJson, Kind.ofJson?, ofFields, ofString, meaningful, meaningful.fieldsMeaningful,
          depth, depth.fieldsDepth, maxKindDepth, field?, allNamed, tagName, toString?, ofTag?,
          Arithmetic.name, Arithmetic.ofName?, Arithmetic.all]

theorem Kind.toJson_plain (kind : Kind) : kind.toJson.Plain := by
  cases kind with
  | unary function | binary function => exact .ofFields (by simp [ofString_plain])
  | arithmetic operation => exact .ofFields (by simp [ofString_plain])

/-! ### Entries -/

theorem NodeEntry.ofJson?_toJson (n : NodeEntry) : NodeEntry.ofJson? n.toJson = some n := by
  simp [toJson, NodeEntry.ofJson?, ofFields, record?, field?, allNamed, Record.required,
    toWord?_ofWord, toList?_map toWord?_ofWord, toBool?, Origin.ofJson?_toJson]

theorem NodeEntry.toJson_plain (n : NodeEntry) : n.toJson.Plain :=
  .ofFields (by
    simp [ofWord_plain, Plain.map ofWord_plain n.shape, Plain.bool, Origin.toJson_plain])

theorem ExpressionEntry.ofJson?_toJson (e : ExpressionEntry) :
    ExpressionEntry.ofJson? e.toJson = some e := by
  obtain ⟨id, kind, first, second, result⟩ := e
  cases second with
  | none =>
      simp [toJson, ExpressionEntry.ofJson?, ofFields, record?, field?, allNamed, Record.required,
        Record.nullable, toWord?_ofWord, Kind.ofJson?_toJson]
  | some second =>
      simp [toJson, ExpressionEntry.ofJson?, ofFields, record?, field?, allNamed, Record.required,
        Record.nullable_word second, toWord?_ofWord, Kind.ofJson?_toJson]

theorem ExpressionEntry.toJson_plain (e : ExpressionEntry) : e.toJson.Plain := by
  obtain ⟨id, kind, first, second, result⟩ := e
  cases second with
  | none | some second => exact .ofFields (by simp [ofWord_plain, Kind.toJson_plain])

theorem LinkEntry.ofJson?_toJson (l : LinkEntry) : LinkEntry.ofJson? l.toJson = some l := by
  simp [toJson, LinkEntry.ofJson?, ofFields, record?, field?, allNamed, Record.required,
    toWord?_ofWord]

theorem LinkEntry.toJson_plain (l : LinkEntry) : l.toJson.Plain :=
  .ofFields (by simp [ofWord_plain])

/-! ### Descriptors -/

theorem ofTree?_toTree (d : Descriptor) : ofTree? d.toTree = some d := by
  have nodes := toList?_map NodeEntry.ofJson?_toJson d.nodes
  have expressions := toList?_map ExpressionEntry.ofJson?_toJson d.expressions
  have links := toList?_map LinkEntry.ofJson?_toJson d.links
  -- The field of the links is left out if there are none.
  by_cases none : d.links = []
  · rw [toTree, none]
    simp [ofTree?, ofFields, record?, field?, allNamed, Record.required, Record.defaulted,
      toString?, ofString, toWord?_ofWord, toList?_map toWord?_ofWord, nodes, expressions, ← none]
  · rw [toTree, if_neg (by simpa using none)]
    simp [ofTree?, ofFields, record?, field?, allNamed, Record.required, Record.defaulted,
      toString?, ofString, toWord?_ofWord, toList?_map toWord?_ofWord, nodes, expressions, links]

theorem toTree_plain (d : Descriptor) : d.toTree.Plain := by
  refine .ofFields ?_
  rw [List.forall_mem_append]
  constructor
  · simp [ofString_plain, ofWord_plain, Plain.map NodeEntry.toJson_plain,
      Plain.map ExpressionEntry.toJson_plain, Plain.map ofWord_plain]
  · split
    · simp
    · simp [Plain.map LinkEntry.toJson_plain]

/-- A descriptor is read from its text as it was. -/
theorem ofJson?_toJson (d : Descriptor) : ofJson? d.toJson = some d := by
  have read : parse? d.toJson = some d.toTree :=
    d.toTree_plain.parse?_render Layout.spread_blank 0
  rw [ofJson?, read]
  exact d.ofTree?_toTree

/-- Every descriptor is read from its text as it was, so no two have one text, and a text that is
read, written and read again gives what it gave at first. -/
theorem round_trip :
    (∀ d : Descriptor, ofJson? d.toJson = some d) ∧ Function.Injective toJson ∧
      ∀ text : String, (ofJson? text).bind (fun d => ofJson? d.toJson) = ofJson? text := by
  refine ⟨ofJson?_toJson, fun d e same => ?_, fun text => ?_⟩
  · have read : some d = some e := by rw [← ofJson?_toJson d, same, ofJson?_toJson e]
    exact Option.some.inj read
  · cases ofJson? text with
    | none => rfl
    | some d =>
        rw [Option.bind_some]
        exact d.ofJson?_toJson

/-- A descriptor with a link, an absent second argument, an empty list, the largest word and a name
with a quote, a backslash, a line break, another control and a letter beyond ASCII. -/
def sample : Descriptor where
  version := currentVersion
  name := "say \"é\" \\ \n\x01"
  input := 0
  output := 18446744073709551615
  nodes := [⟨0, [], false, .leaf 0⟩, ⟨1, [2, 3], true, .carried 0⟩, ⟨2, [2, 3], false, .result 0⟩]
  expressions := [⟨0, .unary "SIN", 1, none, 2⟩, ⟨1, .arithmetic .dot, 0, some 1, 3⟩]
  backward := []
  links := [⟨2, 1⟩]

theorem sample_round_trip :
    ofJson? sample.toJson = some sample ∧
      ∀ d : Descriptor, d.toJson = sample.toJson → d = sample := by
  obtain ⟨read, injective, -⟩ := round_trip
  exact ⟨read sample, fun d same => injective same⟩

end Descriptor

end GradientReplay
