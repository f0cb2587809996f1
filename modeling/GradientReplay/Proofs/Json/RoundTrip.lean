import GradientReplay.Json.Syntax
import GradientReplay.Proofs.Json.Spelling

/-!
Trees and their texts.

A tree stands for a list of tokens (`Json.tokens`), and the machine makes the tree of them
(`Json.ofTokens?_tokens`). However a tree is laid out with blanks, its text spells these tokens
(`Json.Plain.spells`). So reading what was written gives the tree again
(`Json.Plain.parse?_render`), and so does every other text that spells its tokens.
-/

namespace GradientReplay.Json

open Token

/-! ### The tokens of a tree -/

mutual

/-- The tokens of a tree. -/
def tokens : Json → List Token
  | .null => [.null]
  | .bool b => [.bool b]
  | .number n => [.number n]
  | .string text => [.string text]
  | .array [] => [.openBracket, .closeBracket]
  | .array (item :: items) => .openBracket :: item.tokens ++ itemTokens items ++ [.closeBracket]
  | .object [] => [.openBrace, .closeBrace]
  | .object ((key, value) :: fields) =>
      .openBrace :: .string key :: .colon :: value.tokens ++ fieldTokens fields ++ [.closeBrace]

/-- The tokens of the items after the first. -/
def itemTokens : List Json → List Token
  | [] => []
  | item :: items => .comma :: item.tokens ++ itemTokens items

/-- The tokens of the fields after the first. -/
def fieldTokens : List Field → List Token
  | [] => []
  | (key, value) :: fields => .comma :: .string key :: .colon :: value.tokens ++ fieldTokens fields

end

/-- A tree whose numerals are whole numbers. -/
inductive Plain : Json → Prop where
  | null : Plain .null
  | bool (b : Bool) : Plain (.bool b)
  | nat (k : Nat) : Plain (.ofNat k)
  | string (text : Option String) : Plain (.string text)
  | array {items : List Json} : (∀ item ∈ items, Plain item) → Plain (.array items)
  | object {fields : List Field} : (∀ field ∈ fields, Plain field.2) → Plain (.object fields)

/-- What holds of every tree whose parts it holds of, holds of all trees. -/
@[elab_as_elim]
theorem inductionOnParts {motive : Json → Prop} (null : motive .null)
    (bool : ∀ b, motive (.bool b)) (number : ∀ n, motive (.number n))
    (string : ∀ text, motive (.string text))
    (array : ∀ items, (∀ item ∈ items, motive item) → motive (.array items))
    (object : ∀ fields, (∀ field ∈ fields, motive field.2) → motive (.object fields))
    (tree : Json) : motive tree :=
  match tree with
  | .null => null
  | .bool b => bool b
  | .number n => number n
  | .string text => string text
  | .array items => array items fun item _ =>
      inductionOnParts null bool number string array object item
  | .object fields => object fields fun (_, value) within =>
      have smaller : sizeOf value < sizeOf fields := by
        have field := List.sizeOf_lt_of_mem within
        rw [Prod.mk.sizeOf_spec] at field
        omega
      inductionOnParts null bool number string array object value
termination_by tree

/-! ### From tokens to the tree -/

section Machine

variable {tree : Json} {stack : List Frame} {rest : List Token}

/-- What begins a tree does not end an array. -/
theorem exists_tokens (tree : Json) :
    ∃ first more, tree.tokens = first :: more ∧ first ≠ .closeBracket := by
  rcases tree with _ | b | n | s | (_ | _) | (_ | _)
  all_goals
    rw [tokens]
    exact ⟨_, _, rfl, by simp⟩

/-- Where the first item of an array may stand, a tree begins as anywhere. -/
theorem foldlM_firstItem (tree : Json) (stack : List Frame) (rest : List Token) :
    (tree.tokens ++ rest).foldlM Expect.step (.firstItem stack) =
      (tree.tokens ++ rest).foldlM Expect.step (.value (.array [] :: stack)) := by
  obtain ⟨first, more, eq, ne⟩ := exists_tokens tree
  rw [eq, List.cons_append, List.foldlM_cons, List.foldlM_cons]
  cases first with
  | closeBracket => exact absurd rfl ne
  | _ => rfl

theorem foldlM_items {items before : List Json}
    (read : ∀ item ∈ items, ∀ stack rest, (item.tokens ++ rest).foldlM Expect.step (.value stack) =
      rest.foldlM Expect.step (.complete item stack)) :
    (itemTokens items ++ .closeBracket :: rest).foldlM Expect.step (.afterItem before stack) =
      rest.foldlM Expect.step (.complete (.array (before.reverse ++ items)) stack) := by
  induction items generalizing before with
  | nil =>
      rw [List.append_nil]
      rfl
  | cons item items ih =>
      have comma : Expect.step (.afterItem before stack) .comma =
        some (.value (.array before :: stack)) := rfl
      rw [itemTokens, List.cons_append, List.cons_append, List.foldlM_cons, comma,
        Option.bind_eq_bind, Option.bind_some, List.append_assoc, read item List.mem_cons_self]
      refine (ih fun item hi => read item (List.mem_cons_of_mem _ hi)).trans ?_
      rw [List.reverse_cons, List.append_assoc, List.singleton_append]

theorem foldlM_fields {fields before : List Field}
    (read : ∀ field ∈ fields, ∀ stack rest,
      (field.2.tokens ++ rest).foldlM Expect.step (.value stack) =
        rest.foldlM Expect.step (.complete field.2 stack)) :
    (fieldTokens fields ++ .closeBrace :: rest).foldlM Expect.step (.afterField before stack) =
      rest.foldlM Expect.step (.complete (.object (before.reverse ++ fields)) stack) := by
  induction fields generalizing before with
  | nil =>
      rw [List.append_nil]
      rfl
  | cons field fields ih =>
      obtain ⟨key, value⟩ := field
      have front : [Token.comma, .string key, .colon].foldlM Expect.step (.afterField before stack) =
        some (.value (.object before key :: stack)) := rfl
      have split : fieldTokens ((key, value) :: fields) ++ .closeBrace :: rest =
          [.comma, .string key, .colon] ++
            (value.tokens ++ (fieldTokens fields ++ .closeBrace :: rest)) := by
        simp [fieldTokens]
      rw [split, List.foldlM_append, front, Option.bind_eq_bind, Option.bind_some,
        read (key, value) List.mem_cons_self]
      refine (ih fun field hf => read field (List.mem_cons_of_mem _ hf)).trans ?_
      rw [List.reverse_cons, List.append_assoc, List.singleton_append]

/-- The tokens of a tree complete it where a value is expected. -/
theorem foldlM_tokens (tree : Json) (stack : List Frame) (rest : List Token) :
    (tree.tokens ++ rest).foldlM Expect.step (.value stack) =
      rest.foldlM Expect.step (.complete tree stack) := by
  induction tree using inductionOnParts generalizing stack rest with
  | null | bool _ | number _ | string _ =>
      rw [tokens]
      rfl
  | array items ih =>
      cases items with
      | nil =>
          rw [tokens]
          rfl
      | cons item items =>
          have opened : Expect.step (.value stack) .openBracket = some (.firstItem stack) := rfl
          have split : (Json.array (item :: items)).tokens ++ rest =
              .openBracket :: (item.tokens ++ (itemTokens items ++ .closeBracket :: rest)) := by
            simp [tokens]
          rw [split, List.foldlM_cons, opened, Option.bind_eq_bind, Option.bind_some,
            foldlM_firstItem, ih item List.mem_cons_self]
          exact foldlM_items fun item hi => ih item (List.mem_cons_of_mem _ hi)
  | object fields ih =>
      cases fields with
      | nil =>
          rw [tokens]
          rfl
      | cons field fields =>
          obtain ⟨key, value⟩ := field
          have front : [Token.openBrace, .string key, .colon].foldlM Expect.step (.value stack) =
            some (.value (.object [] key :: stack)) := rfl
          have split : (Json.object ((key, value) :: fields)).tokens ++ rest =
              [.openBrace, .string key, .colon] ++
                (value.tokens ++ (fieldTokens fields ++ .closeBrace :: rest)) := by
            simp [tokens]
          rw [split, List.foldlM_append, front, Option.bind_eq_bind, Option.bind_some,
            ih (key, value) List.mem_cons_self]
          exact foldlM_fields fun field hf => ih field (List.mem_cons_of_mem _ hf)

theorem ofTokens?_tokens (tree : Json) : ofTokens? tree.tokens = some tree := by
  have read := tree.foldlM_tokens [] []
  rw [List.append_nil] at read
  rw [ofTokens?, read]
  rfl

/-- A text that spells the tokens of a tree is read as the tree. -/
theorem parse?_of_spells {text : String} (spells : Spells text.toList tree.tokens) :
    parse? text = some tree := by
  rw [parse?, spells.ofChars?_eq]
  exact tree.ofTokens?_tokens

end Machine

/-! ### From the tree to a text -/

/-- A layout that puts nothing but blanks between the tokens. -/
structure Layout.Blank (layout : Layout) : Prop where
  line : ∀ depth, ∀ c ∈ layout.line depth, isBlank c = true
  colon : ∃ before after, layout.colon = before ++ ':' :: after ∧
    (∀ c ∈ before, isBlank c = true) ∧ ∀ c ∈ after, isBlank c = true

theorem Layout.spread_blank : Layout.spread.Blank where
  line := by
    intro depth c hc
    rcases List.mem_cons.mp hc with rfl | hc
    · rfl
    · rw [List.eq_of_mem_replicate hc]
      rfl
  colon := ⟨[], [' '], rfl, by simp, by simp [isBlank]⟩

theorem Layout.compact_blank : Layout.compact.Blank where
  line := by simp [Layout.compact]
  colon := ⟨[], [], rfl, by simp, by simp⟩

section Writing

variable {layout : Layout} {tree : Json} {text rest : List Char} {ts : List Token} {depth : Nat}

theorem spells_key (blank : layout.Blank) (key : Option String) (spells : Spells rest ts) :
    Spells (quote key ++ (layout.colon ++ rest)) (.string key :: .colon :: ts) := by
  obtain ⟨before, after, eq, blankBefore, blankAfter⟩ := blank.colon
  refine .token (t := .string key) trivial ?_
  rw [eq, List.append_assoc, List.cons_append]
  exact .blanks blankBefore (.token (t := .colon) trivial (spells.blanks blankAfter))

/-- What closes an array or object goes on with no numeral, and neither does a comma. -/
theorem breaks_of_mark {c : Char} (mark : c = ',' ∨ c = ']' ∨ c = '}') (rest : List Char) :
    Breaks (c :: rest) := by
  rintro _ ⟨⟩
  rcases mark with rfl | rfl | rfl <;> decide

theorem breaks_items (items : List Json) (breaks : Breaks rest) :
    Breaks (renderItems layout depth items ++ rest) := by
  cases items with
  | nil => exact breaks
  | cons item items =>
      rw [renderItems]
      exact breaks_of_mark (.inl rfl) _

theorem breaks_fields (fields : List Field) (breaks : Breaks rest) :
    Breaks (renderFields layout depth fields ++ rest) := by
  cases fields with
  | nil => exact breaks
  | cons field fields =>
      rw [renderFields]
      exact breaks_of_mark (.inl rfl) _

/-- A closing bracket on a line of its own. -/
theorem spells_close (blank : layout.Blank) (depth : Nat) {t : Token} {c : Char}
    (same : t.text = [c]) (before : t.Before rest) (spells : Spells rest ts) :
    Spells (layout.line depth ++ c :: rest) (t :: ts) := by
  refine .blanks (blank.line depth) ?_
  have closed := Spells.token before spells
  rwa [same] at closed

theorem spells_items (blank : layout.Blank) {items : List Json} (breaks : Breaks rest)
    (written : ∀ item ∈ items, ∀ rest ts, Breaks rest → Spells rest ts →
      Spells (render layout depth item ++ rest) (item.tokens ++ ts))
    (spells : Spells rest ts) :
    Spells (renderItems layout depth items ++ rest) (itemTokens items ++ ts) := by
  induction items with
  | nil => exact spells
  | cons item items ih =>
      have later := ih fun item hi => written item (List.mem_cons_of_mem _ hi)
      have first := written item List.mem_cons_self _ _ (breaks_items items breaks) later
      have line := first.blanks (blank.line depth)
      have comma := Spells.token (t := .comma) trivial line
      simpa [renderItems, itemTokens, Token.text] using comma

theorem spells_fields (blank : layout.Blank) {fields : List Field} (breaks : Breaks rest)
    (written : ∀ field ∈ fields, ∀ rest ts, Breaks rest → Spells rest ts →
      Spells (render layout depth field.2 ++ rest) (field.2.tokens ++ ts))
    (spells : Spells rest ts) :
    Spells (renderFields layout depth fields ++ rest) (fieldTokens fields ++ ts) := by
  induction fields with
  | nil => exact spells
  | cons field fields ih =>
      obtain ⟨key, value⟩ := field
      have later := ih fun field hf => written field (List.mem_cons_of_mem _ hf)
      have first := written (key, value) List.mem_cons_self _ _ (breaks_fields fields breaks) later
      have line := (spells_key blank key first).blanks (blank.line depth)
      have comma := Spells.token (t := .comma) trivial line
      simpa [renderFields, fieldTokens, Token.text] using comma

/-- In a layout of blanks the text of a tree spells its tokens. -/
theorem Plain.spells (plain : tree.Plain) (blank : layout.Blank) (depth : Nat)
    (breaks : Breaks rest) (spells : Spells rest ts) :
    Spells (render layout depth tree ++ rest) (tree.tokens ++ ts) := by
  induction plain generalizing depth rest ts with
  | null => exact .token (t := .null) trivial spells
  | bool b =>
      have written := Spells.token (t := .bool b) trivial spells
      cases b <;> exact written
  | nat k => exact .token (t := .number _) ⟨⟨k, rfl⟩, breaks⟩ spells
  | string text => exact .token (t := .string text) trivial spells
  | @array items _ ih =>
      cases items with
      | nil =>
          have closed := Spells.token (t := .closeBracket) trivial spells
          exact .token (t := .openBracket) trivial closed
      | cons item items =>
          have closed := spells_close blank depth (t := .closeBracket) rfl trivial spells
          have ends : Breaks (layout.line depth ++ ']' :: rest) :=
            (breaks_of_mark (.inr (.inl rfl)) rest).blanks (blank.line depth)
          have others := spells_items blank ends
            (fun item hi _ _ => ih item (List.mem_cons_of_mem _ hi) (depth + 1)) closed
          have first := ih item List.mem_cons_self (depth + 1) (breaks_items items ends) others
          have opened := Spells.token (t := .openBracket) trivial
            (first.blanks (blank.line (depth + 1)))
          simpa [render, tokens, Token.text] using opened
  | @object fields _ ih =>
      cases fields with
      | nil =>
          have closed := Spells.token (t := .closeBrace) trivial spells
          exact .token (t := .openBrace) trivial closed
      | cons field fields =>
          obtain ⟨key, value⟩ := field
          have closed := spells_close blank depth (t := .closeBrace) rfl trivial spells
          have ends : Breaks (layout.line depth ++ '}' :: rest) :=
            (breaks_of_mark (.inr (.inr rfl)) rest).blanks (blank.line depth)
          have others := spells_fields blank ends
            (fun field hf _ _ => ih field (List.mem_cons_of_mem _ hf) (depth + 1)) closed
          have first := ih (key, value) List.mem_cons_self (depth + 1) (breaks_fields fields ends)
            others
          have opened := Spells.token (t := .openBrace) trivial
            ((spells_key blank key first).blanks (blank.line (depth + 1)))
          simpa [render, tokens, Token.text] using opened

theorem Plain.render_spells (plain : tree.Plain) (blank : layout.Blank) (depth : Nat) :
    Spells (render layout depth tree) tree.tokens := by
  have ends : Breaks [] := by simp [Breaks]
  have written := plain.spells blank depth ends .done
  rwa [List.append_nil, List.append_nil] at written

/-- What was written in a layout of blanks is read as the tree that was written. -/
theorem Plain.parse?_render (plain : tree.Plain) (blank : layout.Blank) (depth : Nat) :
    parse? (String.ofList (render layout depth tree)) = some tree :=
  parse?_of_spells (by
    rw [String.toList_ofList]
    exact plain.render_spells blank depth)

end Writing

end GradientReplay.Json
