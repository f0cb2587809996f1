import GradientReplay.Proofs.Descriptor.RoundTrip
import GradientReplay.Proofs.Descriptor.Slots
import Mathlib.Logic.Relation

/-!
How the text of a descriptor may be spelled.

An object in the tree of a descriptor may be edited without a change of what it is read as: its
fields put in another order, fields added that it does not know, and a field written down that has
the value it has when it is absent (`Descriptor.Respells`). Other edits leave nothing that can be
read: a field taken out that has to be there, or a known one repeated (`Descriptor.Damages`). Either
may happen to any object inside the tree (`Descriptor.Within`).

One edit of the first kind leaves what the tree is read as (`Descriptor.Within.read?_eq`), so any
number of them does (`Descriptor.read?_eq_of_edits`); one of the second kind leaves nothing
(`Descriptor.Within.read?_eq_none`). With the freedom of blanks and escapes that every text has,
this says which texts are read as a descriptor (`Descriptor.read_however_spelled`).
-/

namespace GradientReplay

open Json

namespace Json

variable {β : Type} {decode : Json → Option β} {item item' : Json} {us ws : List Json}

theorem toList?_replace (same : decode item = decode item') :
    toList? decode (.array (us ++ item :: ws)) = toList? decode (.array (us ++ item' :: ws)) := by
  simp only [toList?, List.mapM_append, List.mapM_cons, same]

/-- A list with an item that does not decode does not decode. -/
theorem toList?_eq_none (undecoded : decode item = none) :
    toList? decode (.array (us ++ item :: ws)) = none := by
  simp [toList?, List.mapM_append, List.mapM_cons, undecoded]

end Json

namespace Descriptor

/-! ### Edits -/

/-- The names that a record at the place knows. A kind knows the label of a function unless its tag
is that of an operation. -/
def Place.Knows : Place → List Field → String → Prop
  | .descriptor, _, name =>
      name ∈ ["version", "name", "input", "output", "nodes", "expressions", "backward", "links"]
  | .node, _, name => name ∈ ["id", "shape", "constant", "provenance"]
  | .origin, _, name => name ∈ ["Leaf", "Result", "Carried"]
  | .expression, _, name => name ∈ ["id", "kind", "arg1", "arg2", "result"]
  | .kind, fields, name => name = tagName ∨ name = "function" ∧
      ∀ operation : Arithmetic, (some tagName, ofString operation.name) ∉ fields
  | .link, _, name => name ∈ ["producer", "consumer"]

/-- What an absent field stands for, written down. -/
inductive Implied : Place → String → Json → Prop where
  | second : Implied .expression "arg2" .null
  | links : Implied .descriptor "links" (.array [])

/-- What an unknown field may hold here. -/
inductive Scalar : Json → Prop where
  | null : Scalar .null
  | bool (b : Bool) : Scalar (.bool b)
  | string (text : String) : Scalar (.ofString text)

/-- Edits of the fields of an object that leave what it is read as. -/
inductive Respells (p : Place) : List Field → List Field → Prop where
  | order {fields fields' : List Field} : fields.Perm fields' → Respells p fields fields'
  | unknown {fields : List Field} {name : String} {content : Json} : p ≠ .origin →
      ¬ p.Knows fields name → Scalar content →
      Respells p fields ((some name, content) :: fields)
  | implied {fields : List Field} {name : String} {content : Json} : Implied p name content →
      (∀ other, (some name, other) ∉ fields) → Respells p fields ((some name, content) :: fields)

/-- Edits of the fields of an object that leave nothing to be read. -/
inductive Damages (p : Place) : List Field → List Field → Prop where
  | missing {before after : List Field} {name : String} {content : Json} :
      p.Knows (before ++ (some name, content) :: after) name →
      (∀ implied, ¬ Implied p name implied) →
      Damages p (before ++ (some name, content) :: after) (before ++ after)
  | repeated {fields : List Field} {name : String} {content content' : Json} :
      p.Knows fields name → (some name, content) ∈ fields →
      Damages p fields ((some name, content') :: fields)

/-- The parts of an object that are objects too: the field that holds them, their place, and what
stands around them in the field. -/
inductive Opens : Place → String → Place → (Json → Json) → Prop where
  | node (us ws : List Json) : Opens .descriptor "nodes" .node fun v => .array (us ++ v :: ws)
  | expression (us ws : List Json) :
      Opens .descriptor "expressions" .expression fun v => .array (us ++ v :: ws)
  | link (us ws : List Json) : Opens .descriptor "links" .link fun v => .array (us ++ v :: ws)
  | origin : Opens .node "provenance" .origin id
  | kind : Opens .expression "kind" .kind id

/-- An edit of one object, at a place or inside of it. -/
inductive Within (edits : Place → List Field → List Field → Prop) : Place → Json → Json → Prop where
  | here {p : Place} {fields fields' : List Field} : edits p fields fields' →
      Within edits p (.object fields) (.object fields')
  | inside {p q : Place} {name : String} {put : Json → Json} {v v' : Json}
      (before after : List Field) : Opens p name q put → Within edits q v v' →
      Within edits p (.object (before ++ (some name, put v) :: after))
        (.object (before ++ (some name, put v') :: after))

variable {p q : Place} {fields fields' before after : List Field} {key : Option String}
  {name : String} {content content' tree tree' : Json} {put : Json → Json}

/-! ### Known fields and slots -/

namespace Place

theorem Knows.of_subset (knows : p.Knows fields name) (less : fields' ⊆ fields) :
    p.Knows fields' name := by
  cases p with
  | kind => exact knows.imp_right fun ⟨named, no⟩ => ⟨named, fun op mem => no op (less mem)⟩
  | descriptor | node | origin | expression | link => exact knows

/-- One more field of a known name leaves it known. -/
theorem Knows.cons (knows : p.Knows fields name) :
    p.Knows ((some name, content) :: fields) name := by
  cases p with
  | kind =>
      refine knows.imp_right fun ⟨named, no⟩ => ⟨named, fun operation mem => ?_⟩
      have other : "function" ≠ tagName := by decide
      simp [named, other.symm, no] at mem
  | descriptor | node | origin | expression | link => exact knows

/-- The known fields of an object that is read are those of its slots. -/
theorem knows_iff {c : p.Content} (record : p ≠ .origin)
    (filled : ∀ s ∈ p.slots c, s.Filled fields) :
    p.Knows fields name ↔ ∃ s ∈ p.slots c, s.name = name := by
  cases p with
  | origin => exact absurd rfl record
  | kind =>
      have tagged := mem_tag_iff (filled _ List.mem_cons_self)
      simp only [Knows, tagged, ← ne_eq]
      exact (Kind.exists_slot_iff c).symm
  | descriptor => simp [Knows, slots, Descriptor.slots, eq_comm]
  | node => simp [Knows, slots, NodeEntry.slots, eq_comm]
  | expression => simp [Knows, slots, ExpressionEntry.slots, eq_comm]
  | link => simp [Knows, slots, LinkEntry.slots, eq_comm]

end Place

theorem Implied.slot (implied : Implied p name content) (c : p.Content) :
    ∃ s ∈ p.slots c, s.name = name ∧ s.decode content = s.absent := by
  cases implied with
  | second =>
      exact ⟨⟨"arg2", some none, orNull toWord?, c.second⟩,
        by simp [Place.slots, ExpressionEntry.slots], rfl, rfl⟩
  | links =>
      exact ⟨⟨"links", some [], toList? LinkEntry.ofJson?, c.links⟩,
        by simp [Place.slots, slots], rfl, rfl⟩

/-- A field for which nothing is implied has to be there. -/
theorem absent_eq_none {c : p.Content} {s : Slot} (hs : s ∈ p.slots c)
    (required : ∀ implied, ¬ Implied p s.name implied) : s.absent = none := by
  cases p with
  | descriptor =>
      simp only [Place.slots, slots, List.mem_cons, List.not_mem_nil, or_false] at hs
      rcases hs with rfl | rfl | rfl | rfl | rfl | rfl | rfl | rfl
      exacts [rfl, rfl, rfl, rfl, rfl, rfl, rfl, absurd .links (required _)]
  | expression =>
      simp only [Place.slots, ExpressionEntry.slots, List.mem_cons, List.not_mem_nil,
        or_false] at hs
      rcases hs with rfl | rfl | rfl | rfl | rfl
      exacts [rfl, rfl, rfl, absurd .second (required _), rfl]
  | node =>
      simp only [Place.slots, NodeEntry.slots, List.mem_cons, List.not_mem_nil, or_false] at hs
      rcases hs with rfl | rfl | rfl | rfl <;> rfl
  | link =>
      simp only [Place.slots, LinkEntry.slots, List.mem_cons, List.not_mem_nil, or_false] at hs
      rcases hs with rfl | rfl <;> rfl
  | kind =>
      rcases List.mem_cons.mp hs with rfl | own
      · rfl
      · cases c with
        | unary f | binary f => rw [List.mem_singleton.mp own]
        | arithmetic operation => cases own
  | origin =>
      cases c with
      | leaf e | result e | carried e => rw [List.mem_singleton.mp hs]

/-- A part of an object counts for a slot only by what it is read as. -/
theorem Opens.slot (opens : Opens p name q put) (c : p.Content) :
    ∃ s ∈ p.slots c, s.name = name ∧
      (∀ v v', q.read? v = q.read? v' → s.decode (put v) = s.decode (put v')) ∧
      ∀ v, q.read? v = none → s.decode (put v) = none := by
  cases opens with
  | node us ws =>
      exact ⟨⟨"nodes", none, toList? NodeEntry.ofJson?, c.nodes⟩,
        by simp [Place.slots, slots], rfl, fun _ _ => toList?_replace, fun _ => toList?_eq_none⟩
  | expression us ws =>
      exact ⟨⟨"expressions", none, toList? ExpressionEntry.ofJson?, c.expressions⟩,
        by simp [Place.slots, slots], rfl, fun _ _ => toList?_replace, fun _ => toList?_eq_none⟩
  | link us ws =>
      exact ⟨⟨"links", some [], toList? LinkEntry.ofJson?, c.links⟩,
        by simp [Place.slots, slots], rfl, fun _ _ => toList?_replace, fun _ => toList?_eq_none⟩
  | origin =>
      exact ⟨⟨"provenance", none, Origin.ofJson?, c.origin⟩,
        by simp [Place.slots, NodeEntry.slots], rfl, fun _ _ same => same, fun _ no => no⟩
  | kind =>
      exact ⟨⟨"kind", none, Kind.ofJson?, c.kind⟩,
        by simp [Place.slots, ExpressionEntry.slots], rfl, fun _ _ same => same, fun _ no => no⟩

/-! ### What may stand at a place -/

theorem Place.admits_perm (perm : fields.Perm fields') : p.Admits fields → p.Admits fields' := by
  have mem (field : Field) (hf : field ∈ fields') : field ∈ fields := perm.mem_iff.mpr hf
  cases p with
  | origin => exact fun ⟨one, keyed⟩ => ⟨perm.length_eq ▸ one, fun f hf => keyed f (mem f hf)⟩
  | kind | descriptor | node | expression | link => exact fun all f hf => all f (mem f hf)

theorem Place.admits_cons_iff (record : p ≠ .origin)
    (light : p = .kind → content.meaningful = true ∧ content.depth = 0) :
    p.Admits ((some name, content) :: fields) ↔ p.Admits fields := by
  cases p with
  | origin => exact absurd rfl record
  | kind =>
      obtain ⟨meaningful, depth⟩ := light rfl
      simp [Admits, Kind.Admits, meaningful, depth, maxKindDepth]
  | descriptor | node | expression | link => simp [Admits, Keyed]

theorem Scalar.light (scalar : Scalar content) :
    content.meaningful = true ∧ content.depth = 0 := by
  cases scalar <;> exact ⟨rfl, rfl⟩

/-- Where parts are objects, only the keys of the fields count. -/
theorem Opens.admits_replace (opens : Opens p name q put) :
    p.Admits (before ++ (key, content) :: after) →
      p.Admits (before ++ (key, content') :: after) := by
  cases opens <;> simp [Place.Admits, Keyed, or_imp, forall_and]

/-! ### One edit -/

theorem Respells.read?_eq (edit : Respells p fields fields') :
    p.read? (.object fields) = p.read? (.object fields') := by
  refine Option.ext fun c => ?_
  rw [Place.read?_object_iff, Place.read?_object_iff]
  cases edit with
  | order perm =>
      exact and_congr ⟨Place.admits_perm perm, Place.admits_perm perm.symm⟩
        (forall₂_congr fun s _ => ⟨.perm perm, .perm perm.symm⟩)
  | @unknown name content record unknown scalar =>
      rw [Place.admits_cons_iff record fun _ => scalar.light]
      refine and_congr_right fun _ => ⟨fun filled s hs => ?_, fun filled s hs => ?_⟩
      · have other : some name ≠ some s.name := by
          rintro ⟨⟩
          exact unknown ((Place.knows_iff record filled).mpr ⟨s, hs, rfl⟩)
        exact (Slot.filled_cons_of_ne other).mpr (filled s hs)
      · have other : some name ≠ some s.name := by
          rintro ⟨⟩
          have knows := (Place.knows_iff record filled).mpr ⟨s, hs, rfl⟩
          exact unknown (knows.of_subset (List.subset_cons_self _ _))
        exact (Slot.filled_cons_of_ne other).mp (filled s hs)
  | @implied name content implied missing =>
      have record : p ≠ .origin := by
        rintro rfl
        cases implied
      rw [Place.admits_cons_iff record (by rintro rfl; cases implied)]
      refine and_congr_right fun _ => forall₂_congr fun s hs => ?_
      obtain ⟨t, ht, rfl, same⟩ := implied.slot c
      by_cases named : s.name = t.name
      · obtain rfl := Place.eq_of_name hs ht named
        have absent : allNamed s.name fields = [] :=
          List.eq_nil_iff_forall_not_mem.mpr fun other mem => missing other (mem_allNamed.mp mem)
        exact (Slot.filled_cons_absent absent same).symm
      · have other : some t.name ≠ some s.name := fun eq => named (Option.some.inj eq).symm
        exact (Slot.filled_cons_of_ne other).symm

theorem Damages.read?_eq_none {c : p.Content} (edit : Damages p fields fields')
    (read : p.read? (.object fields) = some c) : p.read? (.object fields') = none := by
  rw [Option.eq_none_iff_forall_ne_some]
  intro c' read'
  obtain ⟨admits, filled⟩ := Place.read?_object_iff.mp read
  obtain ⟨admits', filled'⟩ := Place.read?_object_iff.mp read'
  -- An origin is the only field of its object before the edit, and would have to be after it.
  by_cases record : p = .origin
  · subst record
    have one : fields.length = 1 := admits.1
    have one' : fields'.length = 1 := admits'.1
    cases edit with
    | missing knows required =>
        simp only [List.length_append, List.length_cons] at one one'
        omega
    | repeated knows mem =>
        rw [List.length_cons] at one'
        omega
  cases edit with
  | @missing before after name content knows required =>
      obtain ⟨t, ht, rfl⟩ := (Place.knows_iff record filled).mp knows
      have still : p.Knows (before ++ after) t.name :=
        knows.of_subset ((List.sublist_cons_self _ _).append_left before).subset
      obtain ⟨s, hs, named⟩ := (Place.knows_iff record filled').mp still
      have gone : allNamed s.name (before ++ after) = [] := by
        have single := (filled t ht).single
        rw [allNamed_append, allNamed_cons_self, List.length_append, List.length_cons] at single
        rw [named, ← List.length_eq_zero_iff, allNamed_append, List.length_append]
        omega
      exact Slot.not_filled_of_missing (absent_eq_none hs (named ▸ required)) gone (filled' s hs)
  | repeated knows mem =>
      obtain ⟨s, hs, rfl⟩ := (Place.knows_iff record filled').mp knows.cons
      exact Slot.not_filled_of_repeated (List.ne_nil_of_mem (mem_allNamed.mpr mem)) (filled' s hs)

/-! ### Edits inside a tree -/

/-- An edit that leaves what an object is read as leaves what is read around it. -/
theorem Within.read?_eq (edit : Within Respells p tree tree') : p.read? tree = p.read? tree' := by
  induction edit with
  | here edit => exact edit.read?_eq
  | @inside p q name put v v' before after opens _ ih =>
      refine Option.ext fun c => ?_
      rw [Place.read?_object_iff, Place.read?_object_iff]
      obtain ⟨t, ht, rfl, decoded, -⟩ := opens.slot c
      have same (s : Slot) (hs : s ∈ p.slots c) (named : some t.name = some s.name) :
          s.decode (put v) = s.decode (put v') := by
        obtain rfl := Place.eq_of_name ht hs (Option.some.inj named)
        exact decoded v v' ih
      exact and_congr ⟨opens.admits_replace, opens.admits_replace⟩ (forall₂_congr fun s hs =>
        ⟨.replace (same s hs), .replace fun named => (same s hs named).symm⟩)

/-- An edit that leaves nothing to be read of an object leaves nothing of what is around it. -/
theorem Within.read?_eq_none {c : p.Content} (edit : Within Damages p tree tree')
    (read : p.read? tree = some c) : p.read? tree' = none := by
  induction edit with
  | here edit => exact edit.read?_eq_none read
  | @inside p q name put v v' before after opens _ ih =>
      have filled := (Place.read?_object_iff.mp read).2
      obtain ⟨t, ht, rfl, -, undecoded⟩ := opens.slot c
      obtain ⟨part, whole⟩ : ∃ part, q.read? v = some part := by
        rw [← Option.isSome_iff_exists, Option.isSome_iff_ne_none]
        intro none
        exact Slot.not_filled_of_undecoded (by simp) (undecoded v none) (filled t ht)
      rw [Option.eq_none_iff_forall_ne_some]
      intro c' read'
      have filled' := (Place.read?_object_iff.mp read').2
      obtain ⟨s, hs, named, -, undecoded'⟩ := opens.slot c'
      have nothing := undecoded' v' (ih whole)
      exact Slot.not_filled_of_undecoded (by simp [named]) nothing (filled' s hs)

/-- Any number of edits leaves what a tree is read as. -/
theorem read?_eq_of_edits (edits : Relation.ReflTransGen (Within Respells p) tree tree') :
    p.read? tree = p.read? tree' := by
  induction edits with
  | refl => rfl
  | tail _ edit ih => exact ih.trans edit.read?_eq

/-! ### Texts -/

/-- The text spells the tree of the descriptor, after any number of edits. -/
def Spelling (d : Descriptor) (text : String) : Prop :=
  ∃ tree, Relation.ReflTransGen (Within Respells .descriptor) d.toTree tree ∧
    Token.Spells text.toList tree.tokens

/-- The text spells the tree of the descriptor, after any number of edits and one that damages. -/
def Damage (d : Descriptor) (text : String) : Prop :=
  ∃ tree broken tree', Relation.ReflTransGen (Within Respells .descriptor) d.toTree tree ∧
    Within Damages .descriptor tree broken ∧
    Relation.ReflTransGen (Within Respells .descriptor) broken tree' ∧
    Token.Spells text.toList tree'.tokens

/-- A descriptor is read from each of its spellings, its own text among them, and nothing is read
from one that is damaged. -/
theorem read_however_spelled :
    (∀ d : Descriptor, d.Spelling d.toJson) ∧
      (∀ (d : Descriptor) (text : String), d.Spelling text → ofJson? text = some d) ∧
      ∀ (d : Descriptor) (text : String), d.Damage text → ofJson? text = none := by
  refine ⟨fun d => ?_, ?_, ?_⟩
  · refine ⟨d.toTree, .refl, ?_⟩
    rw [toJson, pretty, String.toList_ofList]
    exact d.toTree_plain.render_spells Layout.spread_blank 0
  · rintro d text ⟨tree, edits, spells⟩
    have same : ofTree? d.toTree = ofTree? tree := read?_eq_of_edits edits
    rw [ofJson?, parse?_of_spells spells, Option.bind_some, ← same, d.ofTree?_toTree]
  · rintro d text ⟨tree, broken, tree', edits, damage, others, spells⟩
    have same : ofTree? d.toTree = ofTree? tree := read?_eq_of_edits edits
    have read : ofTree? tree = some d := same.symm.trans d.ofTree?_toTree
    have after : ofTree? broken = ofTree? tree' := read?_eq_of_edits others
    have nothing : ofTree? broken = none := damage.read?_eq_none read
    rw [ofJson?, parse?_of_spells spells, Option.bind_some, ← after, nothing]

/-- A descriptor with one expression. -/
def sine : Descriptor where
  version := currentVersion
  name := "sine"
  input := 0
  output := 1
  nodes := []
  expressions := [⟨0, .unary "SIN", 0, none, 1⟩]
  backward := [0]
  links := []

/-- The tree of `sine` around the fields of its expression. -/
def sineAround (fields : List (String × Json)) : Json :=
  .ofFields [("version", .ofString currentVersion), ("name", .ofString "sine"),
    ("input", .ofWord 0), ("output", .ofWord 1), ("nodes", .array []),
    ("expressions", .array [.ofFields fields]), ("backward", .array [.ofWord 0])]

/-- The tag stands behind the label, a field is unknown, and the second argument is written. -/
def sineRespelled : Json :=
  sineAround [("arg2", .null), ("note", .bool true), ("id", .ofWord 0),
    ("kind", .ofFields [("function", .ofString "SIN"), (tagName, .ofString "UnaryFunction")]),
    ("arg1", .ofWord 0), ("result", .ofWord 1)]

/-- A field is repeated. -/
def sineDamaged : Json :=
  sineAround [("arg1", .ofWord 1), ("id", .ofWord 0), ("kind", Kind.toJson (.unary "SIN")),
    ("arg1", .ofWord 0), ("result", .ofWord 1)]

theorem within_sine {edits : Place → List Field → List Field → Prop}
    {fields fields' : List (String × Json)}
    (edit : Within edits .expression (.ofFields fields) (.ofFields fields')) :
    Within edits .descriptor (sineAround fields) (sineAround fields') :=
  .inside [(some "version", .ofString currentVersion), (some "name", .ofString "sine"),
    (some "input", .ofWord 0), (some "output", .ofWord 1), (some "nodes", .array [])]
    [(some "backward", .array [.ofWord 0])] (.expression [] []) edit

theorem sineAround_plain {fields : List (String × Json)}
    (plain : ∀ field ∈ fields, field.2.Plain) : (sineAround fields).Plain := by
  have list {item : Json} (h : item.Plain) : (Json.array [item]).Plain := .array (by simpa using h)
  exact .ofFields (by
    simp [ofString_plain, ofWord_plain, list, Plain.ofFields plain, Plain.array])

theorem sine_spelling : sine.Spelling sineRespelled.compact := by
  have swapped : Within Respells .expression
      (.ofFields [("id", .ofWord 0), ("kind", Kind.toJson (.unary "SIN")), ("arg1", .ofWord 0),
        ("result", .ofWord 1)])
      (.ofFields [("id", .ofWord 0),
        ("kind", .ofFields [("function", .ofString "SIN"), (tagName, .ofString "UnaryFunction")]),
        ("arg1", .ofWord 0), ("result", .ofWord 1)]) :=
    .inside [(some "id", .ofWord 0)] [(some "arg1", .ofWord 0), (some "result", .ofWord 1)] .kind
      (.here (.order (.swap _ _ _)))
  refine ⟨sineRespelled, .tail (.tail (.single (within_sine swapped))
    (within_sine (.here (.unknown (by decide) ?unknown (.bool true)))))
    (within_sine (.here (.implied .second ?missing))), ?text⟩
  case unknown => simp [Place.Knows]
  case missing => simp
  case text =>
    rw [compact, String.toList_ofList]
    refine Plain.render_spells (sineAround_plain ?_) Layout.compact_blank 0
    simp [ofWord_plain, Plain.null, Plain.bool, Plain.ofFields, ofString_plain]

theorem sine_damage : sine.Damage sineDamaged.compact := by
  refine ⟨sine.toTree, sineDamaged, sineDamaged, .refl,
    within_sine (.here (.repeated ?known (.tail _ (.tail _ (.head _))))), .refl, ?text⟩
  case known => simp [Place.Knows]
  case text =>
    rw [compact, String.toList_ofList]
    refine Plain.render_spells (sineAround_plain ?_) Layout.compact_blank 0
    simp [ofWord_plain, Kind.toJson_plain]

theorem sine_read_however_spelled :
    ofJson? sineRespelled.compact = some sine ∧ ofJson? sineDamaged.compact = none := by
  obtain ⟨-, read, nothing⟩ := read_however_spelled
  exact ⟨read sine _ sine_spelling, nothing sine _ sine_damage⟩

end Descriptor

end GradientReplay
