import GradientReplay.Json.Record
import GradientReplay.Json.Syntax
import Mathlib.Data.List.Basic

/-!
Records read from objects.

From an object a record takes what the fields give for each known name, and nothing else
(`bind_record?_iff`). What has to stand there is a slot: a name, how its content is decoded, and the
value that has to come out (`Slot`). Whether fields fill a slot depends neither on their order nor
on the fields of other names, and of the content only its decoding counts; a field that is missing,
and has no value when it is, fills no slot, and neither does one that is repeated.
-/

namespace GradientReplay.Json

/-! ### The fields of one name -/

section Named

variable {fields fields' before after : List Field} {name : String} {key : Option String}
  {content : Json}

theorem allNamed_cons_self :
    allNamed name ((some name, content) :: fields) = content :: allNamed name fields := by
  simp [allNamed]

theorem allNamed_cons_of_ne (other : key ≠ some name) :
    allNamed name ((key, content) :: fields) = allNamed name fields := by
  simp [allNamed, other]

theorem allNamed_append : allNamed name (before ++ after) =
    allNamed name before ++ allNamed name after :=
  List.filterMap_append

theorem mem_allNamed : content ∈ allNamed name fields ↔ (some name, content) ∈ fields := by
  simp [allNamed, List.mem_filterMap]

/-- The order of fields of different names does not matter. -/
theorem allNamed_perm (name : String) (perm : fields.Perm fields') :
    (allNamed name fields).Perm (allNamed name fields') :=
  perm.filterMap _

/-- Taking out fields of other names changes nothing. -/
theorem allNamed_filter {keep : Field → Bool}
    (kept : ∀ content, keep (some name, content) = true) :
    allNamed name (fields.filter keep) = allNamed name fields := by
  induction fields with
  | nil => rfl
  | cons field fields ih =>
      obtain ⟨key, content⟩ := field
      by_cases named : key = some name
      · rw [named, List.filter_cons_of_pos (kept content), allNamed_cons_self, allNamed_cons_self, ih]
      · rw [allNamed_cons_of_ne named, ← ih]
        cases h : keep (key, content) with
        | true => rw [List.filter_cons_of_pos h, allNamed_cons_of_ne named]
        | false => rw [List.filter_cons_of_neg (by simp [h])]

/-- Are the names of all fields texts? -/
def Keyed (fields : List Field) : Prop := ∀ field ∈ fields, field.1.isSome = true

theorem Keyed.filter (keyed : Keyed fields) (keep : Field → Bool) : Keyed (fields.filter keep) :=
  fun field hf => keyed field (List.mem_of_mem_filter hf)

theorem field?_eq_some_iff {found : Option Json} : field? fields name = some found ↔
    (allNamed name fields).length ≤ 1 ∧ (allNamed name fields).head? = found := by
  unfold field?
  rcases allNamed name fields with _ | ⟨_, _ | ⟨_, _⟩⟩ <;> simp

theorem field?_eq_content_iff :
    field? fields name = some (some content) ↔ allNamed name fields = [content] := by
  rw [field?_eq_some_iff]
  rcases allNamed name fields with _ | ⟨_, _ | ⟨_, _⟩⟩ <;> simp

end Named

/-! ### Slots -/

/-- What is read from all that the fields give for a name. -/
def reading {β : Type} (absent : Option β) (decode : Json → Option β) : List Json → Option β
  | [] => absent
  | [content] => decode content
  | _ => none

theorem reading_eq_some_iff {β : Type} {absent : Option β} {decode : Json → Option β}
    {contents : List Json} {b : β} : reading absent decode contents = some b ↔
      contents = [] ∧ absent = some b ∨
        ∃ content, contents = [content] ∧ decode content = some b := by
  unfold reading
  split <;> simp_all

theorem reading_of_single {β : Type} {absent : Option β} {decode : Json → Option β}
    {contents : List Json} (single : contents.length ≤ 1) :
    reading absent decode contents = contents.head?.elim absent decode := by
  rcases contents with _ | ⟨_, _ | ⟨_, _⟩⟩
  · rfl
  · rfl
  · simp at single

/-- A known name of a record, and the value that has to be read there. -/
structure Slot where
  name : String
  {Value : Type}
  /-- The value when the field is absent, if it may be. -/
  absent : Option Value
  decode : Json → Option Value
  value : Value

namespace Slot

variable {s : Slot} {fields fields' before after : List Field} {key : Option String}
  {content content' : Json}

/-- Is the value of the slot what the fields give for its name? -/
def Filled (s : Slot) (fields : List Field) : Prop :=
  reading s.absent s.decode (allNamed s.name fields) = some s.value

theorem filled_iff : s.Filled fields ↔
    allNamed s.name fields = [] ∧ s.absent = some s.value ∨
      ∃ content, allNamed s.name fields = [content] ∧ s.decode content = some s.value :=
  reading_eq_some_iff

/-- No field that fills a slot is repeated. -/
theorem Filled.single (filled : s.Filled fields) : (allNamed s.name fields).length ≤ 1 := by
  rcases filled_iff.mp filled with ⟨none, -⟩ | ⟨content, one, -⟩
  · simp [none]
  · simp [one]

theorem Filled.perm (perm : fields.Perm fields') (filled : s.Filled fields) :
    s.Filled fields' := by
  have named := allNamed_perm s.name perm
  rw [filled_iff] at filled ⊢
  rcases filled with ⟨none, default⟩ | ⟨content, one, decoded⟩
  · rw [none] at named
    exact .inl ⟨named.nil_eq.symm, default⟩
  · rw [one] at named
    exact .inr ⟨content, named.singleton_eq.symm, decoded⟩

theorem filled_cons_of_ne (other : key ≠ some s.name) :
    s.Filled ((key, content) :: fields) ↔ s.Filled fields := by
  rw [Filled, Filled, allNamed_cons_of_ne other]

theorem filled_filter {keep : Field → Bool}
    (kept : ∀ content, keep (some s.name, content) = true) :
    s.Filled (fields.filter keep) ↔ s.Filled fields := by
  rw [Filled, Filled, allNamed_filter kept]

/-- Writing down the value that an absent field has changes nothing. -/
theorem filled_cons_absent (missing : allNamed s.name fields = [])
    (same : s.decode content = s.absent) :
    s.Filled ((some s.name, content) :: fields) ↔ s.Filled fields := by
  rw [Filled, Filled, allNamed_cons_self, missing]
  simp only [reading, same]

/-- Of a content only its decoding counts. -/
theorem Filled.replace (same : key = some s.name → s.decode content = s.decode content')
    (filled : s.Filled (before ++ (key, content) :: after)) :
    s.Filled (before ++ (key, content') :: after) := by
  by_cases named : key = some s.name
  · subst named
    have decoded := same rfl
    rw [filled_iff, allNamed_append, allNamed_cons_self] at filled ⊢
    simp_all [List.append_eq_singleton_iff]
  · rw [Filled, allNamed_append, allNamed_cons_of_ne named] at filled ⊢
    exact filled

/-- A field that has to be there fills no slot when it is missing. -/
theorem not_filled_of_missing (required : s.absent = none) (missing : allNamed s.name fields = []) :
    ¬ s.Filled fields := by
  simp [filled_iff, required, missing]

theorem not_filled_of_repeated (there : allNamed s.name fields ≠ []) :
    ¬ s.Filled ((some s.name, content) :: fields) := by
  simp [filled_iff, allNamed_cons_self, there]

/-- A content that does not decode fills no slot. -/
theorem not_filled_of_undecoded (there : (some s.name, content) ∈ fields)
    (undecoded : s.decode content = none) : ¬ s.Filled fields := by
  have mem := mem_allNamed.mpr there
  rw [filled_iff]
  rintro (⟨none, -⟩ | ⟨other, one, decoded⟩)
  · simp [none] at mem
  · obtain rfl : content = other := by simpa [one] using mem
    simp [undecoded] at decoded

end Slot

/-! ### Records -/

/-- A content that may be null. -/
def orNull {β : Type} (decode : Json → Option β) : Json → Option (Option β)
  | .null => some none
  | content => (decode content).map some

namespace Record

/-- What the fields of an object give for these names. -/
def ofFields (names : List String) (fields : List Field) : Record :=
  ⟨false, names.map fun name => (allNamed name fields).head?⟩

variable {names : List String} {fields : List Field} {name : String} {position : Nat} {β : Type}

theorem values_ofFields (known : names[position]? = some name) :
    (ofFields names fields).values[position]? = some (allNamed name fields).head? := by
  rw [ofFields, List.getElem?_map, known]
  rfl

theorem required_ofFields (decode : Json → Option β) (known : names[position]? = some name)
    (single : (allNamed name fields).length ≤ 1) :
    (ofFields names fields).required position decode =
      reading none decode (allNamed name fields) := by
  rw [required, values_ofFields known, reading_of_single single]
  cases (allNamed name fields).head? <;> rfl

theorem nullable_ofFields (decode : Json → Option β) (known : names[position]? = some name)
    (single : (allNamed name fields).length ≤ 1) :
    (ofFields names fields).nullable position decode =
      reading (some none) (orNull decode) (allNamed name fields) := by
  rw [nullable, values_ofFields known, reading_of_single single]
  cases (allNamed name fields).head? with
  | none => rfl
  | some content => cases content <;> rfl

theorem defaulted_ofFields (decode : Json → Option β) (absent : β)
    (known : names[position]? = some name) (single : (allNamed name fields).length ≤ 1) :
    (ofFields names fields).defaulted position decode absent =
      reading (some absent) decode (allNamed name fields) := by
  rw [defaulted, values_ofFields known, reading_of_single single]
  cases (allNamed name fields).head? <;> rfl

end Record

section Objects

variable {names : List String} {fields : List Field}

theorem mapM_field?_eq_some_iff {values : List (Option Json)} :
    names.mapM (field? fields) = some values ↔
      (∀ name ∈ names, (allNamed name fields).length ≤ 1) ∧
        names.map (fun name => (allNamed name fields).head?) = values := by
  induction names generalizing values with
  | nil => simp
  | cons name names ih =>
      simp only [List.mapM_cons, Option.bind_eq_bind, Option.bind_eq_some_iff,
        field?_eq_some_iff, ih, Option.pure_def, Option.some.injEq, List.forall_mem_cons,
        List.map_cons]
      constructor
      · rintro ⟨_, ⟨single, rfl⟩, _, ⟨others, rfl⟩, rfl⟩
        exact ⟨⟨single, others⟩, rfl⟩
      · rintro ⟨⟨single, others⟩, rfl⟩
        exact ⟨_, ⟨single, rfl⟩, _, ⟨others, rfl⟩, rfl⟩

/-- An object is read as a record if its keys are texts and no known name is repeated. -/
theorem record?_object_eq_some_iff {r : Record} :
    (Json.object fields).record? names = some r ↔
      Keyed fields ∧ (∀ name ∈ names, (allNamed name fields).length ≤ 1) ∧
        r = .ofFields names fields := by
  rw [record?]
  split
  · rename_i texts
    have keyed : Keyed fields := List.all_eq_true.mp texts
    simp only [Option.bind_eq_bind, Option.bind_eq_some_iff, mapM_field?_eq_some_iff,
      Option.some.injEq, keyed, true_and]
    constructor
    · rintro ⟨_, ⟨single, rfl⟩, rfl⟩
      exact ⟨single, rfl⟩
    · rintro ⟨single, rfl⟩
      exact ⟨_, ⟨single, rfl⟩, rfl⟩
  · rename_i broken
    have unkeyed : ¬ Keyed fields := fun keyed => broken (List.all_eq_true.mpr keyed)
    simp [unkeyed]

/-- A record is read from an object exactly if the fields fill its slots, once this holds of fields
of which none is repeated. -/
theorem bind_record?_eq_some_iff {β : Type} {read : Record → Option β} {b : β} (slots : List Slot)
    (body : (∀ s ∈ slots, (allNamed s.name fields).length ≤ 1) →
      (read (.ofFields (slots.map (·.name)) fields) = some b ↔ ∀ s ∈ slots, s.Filled fields)) :
    ((Json.object fields).record? (slots.map (·.name))).bind read = some b ↔
      Keyed fields ∧ ∀ s ∈ slots, s.Filled fields := by
  simp only [Option.bind_eq_some_iff, record?_object_eq_some_iff, List.forall_mem_map]
  constructor
  · rintro ⟨_, ⟨keyed, single, rfl⟩, read⟩
    exact ⟨keyed, (body single).mp read⟩
  · rintro ⟨keyed, filled⟩
    have single : ∀ s ∈ slots, (allNamed s.name fields).length ≤ 1 :=
      fun s hs => (filled s hs).single
    exact ⟨_, ⟨keyed, single, rfl⟩, (body single).mpr filled⟩

end Objects

/-! ### Objects that are read whole -/

section Whole

variable {fields : List Field}

theorem depth_object_le_iff (bound : Nat) :
    (Json.object fields).depth ≤ bound + 1 ↔ ∀ field ∈ fields, field.2.depth < bound + 1 := by
  simp only [depth, Nat.add_le_add_iff_right, Nat.lt_succ_iff]
  induction fields with
  | nil => simp [depth.fieldsDepth]
  | cons field fields ih => rw [depth.fieldsDepth, Nat.max_le, ih, List.forall_mem_cons]

theorem meaningful_object_iff : (Json.object fields).meaningful = true ↔
    ∀ field ∈ fields, field.1.isSome = true ∧ field.2.meaningful = true := by
  rw [meaningful]
  induction fields with
  | nil => simp [meaningful.fieldsMeaningful]
  | cons field fields ih =>
      rw [meaningful.fieldsMeaningful, Bool.and_eq_true, Bool.and_eq_true, ih,
        List.forall_mem_cons]

end Whole

end GradientReplay.Json
