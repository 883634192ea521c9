import ClassCompiler.Proofs.Collections
import ClassCompiler.Proofs.Json.Reading
import ClassCompiler.Proofs.Syntax.Loading
import Mathlib.Data.Nat.Init

/-! Writing a tree and reading it again. The document that is written of a tree differs from the
one that the tree was read from in its attributes, which are texts by then. It denotes the same
tree, and it takes no more room, so that its text is read. -/

namespace ClassCompiler
set_option autoImplicit false

namespace Document

mutual

/-- A document with its attributes as texts makes the same nodes. -/
theorem build_texts (document : Document) : build document.texts = build document := by
  cases document with
  | node kind attributes children location =>
    rw [texts, build, build, buildAll_texts children]
    simp only [NameMap.mapValues, List.map_map]
    rfl

theorem buildAll_texts (documents : List Document) :
    buildAll (textsAll documents) = buildAll documents := by
  cases documents with
  | nil => rfl
  | cons document documents =>
    rw [textsAll, buildAll, buildAll, build_texts document, buildAll_texts documents]

end

theorem toTree_texts (document : Document) : document.texts.toTree = document.toTree := by
  rw [toTree, toTree, build_texts]

section Writing

theorem plain_attributeJson (value : AttributeValue) : (attributeJson value).Plain := by
  cases value with
  | flag value => exact .bool value
  | integer value => exact .number value
  | text value => exact .string value

theorem plain_attributes (attributes : NameMap AttributeValue) :
    (Json.object (attributes.entries.map fun (key, value) =>
      (some key, attributeJson value))).Plain := by
  refine .object ?_ ?_ <;> simp only [List.forall_mem_map]
  · exact fun entry _ => ⟨entry.1, rfl⟩
  · exact fun entry _ => plain_attributeJson entry.2

mutual

/-- What is written of a document is a plain value. -/
theorem plain_toJson (document : Document) : document.toJson.Plain := by
  cases document with
  | node kind attributes children location =>
    have items : (Json.array (toJsonAll children)).Plain :=
      .array (plain_of_mem_toJsonAll children)
    have position : ∀ n : Nat, (Json.nat n).Plain := fun n => .number (n : Int)
    rw [toJson]
    refine .object ?_ ?_ <;> simp only [List.forall_mem_append, List.forall_mem_cons]
    · refine ⟨⟨⟨⟨⟨_, rfl⟩, List.forall_mem_nil _⟩, ?_⟩, ?_⟩,
        ⟨_, rfl⟩, ⟨_, rfl⟩, List.forall_mem_nil _⟩ <;> split <;> simp
    · refine ⟨⟨⟨⟨.string kind, List.forall_mem_nil _⟩, ?_⟩, ?_⟩,
        position _, position _, List.forall_mem_nil _⟩ <;> split
      · simp
      · simpa using plain_attributes attributes
      · simp
      · simpa using items

theorem plain_of_mem_toJsonAll (documents : List Document) :
    ∀ json ∈ toJsonAll documents, json.Plain := by
  cases documents with
  | nil => exact fun _ h => by cases h
  | cons document documents =>
    rw [toJsonAll, List.forall_mem_cons]
    exact ⟨plain_toJson document, plain_of_mem_toJsonAll documents⟩

end

theorem toJsonAll_eq_map (documents : List Document) :
    toJsonAll documents = documents.map toJson := by
  induction documents with
  | nil => rfl
  | cons document documents ih => rw [toJsonAll, ih, List.map_cons]

theorem fields?_toJson (kind : String) (attributes : NameMap AttributeValue)
    (children : List Document) (location : Location) :
    fields? (toJson (.node kind attributes children location)) = some {
      kind := .text kind
      attributes := if attributes.isEmpty then none else some (.object
        (attributes.entries.map fun (key, value) => (some key, attributeJson value)))
      children := if children.isEmpty then none else some (.array (toJsonAll children))
      line := some (.nat location.line.toNat)
      column := some (.nat location.column.toNat) } := by
  have mapped : (attributes.entries.map fun (key, value) =>
      ((some key, attributeJson value) : Option String × Json)).isEmpty = attributes.isEmpty := by
    simp [NameMap.isEmpty]
  rw [toJson]
  simp only [mapped, toJsonAll_eq_map, List.isEmpty_map]
  cases attributes.isEmpty <;> cases children.isEmpty <;> simp [fields?, unique?, Json.members]

theorem position?_of_integer? {json : Json} {value : Int} (h : json.integer? = some value)
    (nonneg : 0 ≤ value) (fits : value < 4294967296) :
    position? (some json) = some (UInt32.ofNat value.toNat) := by
  simp [position?, h, nonneg, fits]

theorem position?_nat (n : UInt32) : position? (some (.nat n.toNat)) = some n := by
  have fits : (n.toNat : Int) < 4294967296 := by
    have small := n.toNat_lt
    omega
  rw [position?_of_integer? (Json.integer?_nat _) (Int.natCast_nonneg _) fits, Int.toNat_natCast,
    UInt32.ofNat_toNat]

end Writing

section Reading

variable {room : Nat} {readChild : Json → Option Document} {json : Json} {document : Document}
variable {kind : String} {attributes : NameMap AttributeValue} {children : List Document}
variable {location : Location}

/-- A map of attributes that are not left out takes room. -/
theorem pos_of_attributes? {found : Option Json} (h : attributes? room found = some attributes)
    (filled : attributes.isEmpty = false) : room ≠ 0 := by
  rintro rfl
  unfold attributes? at h
  split at h
  · cases h
    cases filled
  · cases h
  · cases h

theorem of_children? {found : Option Json} (h : children? room readChild found = some children) :
    (children.isEmpty = false → room ≠ 0) ∧
    ∀ child ∈ children, ∃ item, readChild item = some child := by
  unfold children? at h
  split at h
  · cases h
    exact ⟨fun filled => (by cases filled), fun _ hc => by cases hc⟩
  · rename_i items
    split at h
    · cases h
    · rename_i room
      refine ⟨fun _ => room, fun child hc => ?_⟩
      have listed : some child ∈ items.map readChild :=
        mapM_eq_some_iff.mp h ▸ List.mem_map_of_mem hc
      obtain ⟨item, -, read⟩ := List.mem_map.mp listed
      exact ⟨item, read⟩
  · cases h

theorem of_assemble?
    (h : assemble? room readChild json = some (.node kind attributes children location)) :
    (attributes.isEmpty = false → room ≠ 0) ∧ (children.isEmpty = false → room ≠ 0) ∧
    ∀ child ∈ children, ∃ item, readChild item = some child := by
  unfold assemble? at h
  obtain ⟨fields, -, h⟩ := Option.bind_eq_some_iff.mp h
  split at h
  · simp only [Option.bind_eq_bind, Option.bind_eq_some_iff, Option.pure_def, Option.some.injEq,
      node.injEq] at h
    obtain ⟨_, attributesRead, _, childrenRead, _, _, _, _, -, rfl, rfl, -⟩ := h
    exact ⟨pos_of_attributes? attributesRead, of_children? childrenRead⟩
  · cases h

theorem assemble?_toJson (texts : ∀ entry ∈ attributes.entries, ∃ text, entry.2 = .text text)
    (attributesRoom : attributes.isEmpty = false → room ≠ 0)
    (childrenRoom : children.isEmpty = false → room ≠ 0)
    (reads : ∀ child ∈ children, readChild child.toJson = some child) :
    assemble? room readChild (toJson (.node kind attributes children location)) =
      some (.node kind attributes children location) := by
  have attributesRead : attributes? room (if attributes.isEmpty then none else some (.object
      (attributes.entries.map fun (key, value) => (some key, attributeJson value)))) =
        some attributes := by
    cases empty : attributes.isEmpty with
    | true =>
      have none : attributes = {} := by
        obtain ⟨entries, sorted⟩ := attributes
        obtain rfl : entries = [] := List.isEmpty_iff.mp empty
        rfl
      rw [none]
      rfl
    | false =>
      have read : (attributes.entries.map fun (key, value) =>
          ((some key, attributeJson value) : Option String × Json)).mapM attribute? =
            some attributes.entries := by
        rw [mapM_eq_some_iff, List.map_map]
        refine List.map_congr_left fun entry he => ?_
        obtain ⟨text, same⟩ := texts entry he
        simp only [Function.comp_apply, same]
        exact congrArg (fun value => some (entry.1, value)) same.symm
      simp [attributes?, attributesRoom empty, read, NameMap.ofList_entries]
  have childrenRead : children? room readChild
      (if children.isEmpty then none else some (.array (toJsonAll children))) = some children := by
    cases empty : children.isEmpty with
    | true =>
      rw [List.isEmpty_iff.mp empty]
      rfl
    | false =>
      have read : (toJsonAll children).mapM readChild = some children := by
        rw [mapM_eq_some_iff, toJsonAll_eq_map, List.map_map]
        exact List.map_congr_left reads
      simp [children?, childrenRoom empty, read]
  rw [assemble?, fields?_toJson]
  simp only [Option.bind_eq_bind, Option.bind_some, Json.text, attributesRead, childrenRead,
    position?_nat]
  rfl

theorem textsAll_eq_map (documents : List Document) :
    textsAll documents = documents.map texts := by
  induction documents with
  | nil => rfl
  | cons document documents ih => rw [textsAll, ih, List.map_cons]

theorem assemble?_texts (h : assemble? room readChild json = some document)
    (reads : ∀ item child, readChild item = some child →
      readChild child.texts.toJson = some child.texts) :
    assemble? room readChild document.texts.toJson = some document.texts := by
  obtain ⟨kind, attributes, children, location⟩ := document
  obtain ⟨attributesRoom, childrenRoom, below⟩ := of_assemble? h
  rw [texts]
  refine assemble?_toJson ?_ ?_ ?_ ?_
  · simp only [NameMap.mapValues, List.forall_mem_map]
    exact fun entry _ => ⟨_, rfl⟩
  · simpa [NameMap.isEmpty, NameMap.mapValues] using attributesRoom
  · simpa [textsAll_eq_map] using childrenRoom
  · rw [textsAll_eq_map, List.forall_mem_map]
    intro child hc
    obtain ⟨item, read⟩ := below child hc
    exact reads item child read

/-- A document that was read takes no more room with its attributes as texts. -/
theorem ofJson?_texts (h : ofJson? room json = some document) :
    ofJson? room document.texts.toJson = some document.texts := by
  induction room using Nat.twoStepInduction generalizing json document with
  | zero => cases h
  | one => exact assemble?_texts h fun _ _ read => by cases read
  | more room ih _ => exact assemble?_texts h fun _ _ read => ih read

end Reading
end Document

/-- A tree that was read is written as a text that is read as the same tree. -/
theorem Tree.load_toJson {text : String} {tree : Tree} (h : Tree.load text = .ok tree) :
    Tree.load tree.toJson = .ok tree := by
  obtain ⟨document, t, parsed, made, same, shown⟩ := shows_of_load h
  obtain ⟨json, -, read⟩ := Option.bind_eq_some_iff.mp parsed
  have written : tree.toJson = document.texts.toJson.render := by
    rw [Tree.toJson, shown.rootTerm_eq, Context.plug, same]
  have again : Document.parse? tree.toJson = some document.texts := by
    rw [written, Document.parse?, Json.parse?_render (Document.plain_toJson _)]
    exact Document.ofJson?_texts read
  rw [Tree.load, again]
  simp only [Document.toTree_texts, made]
  rfl

/-- A node with an attribute of each sort, one of them a text of characters that are escaped. -/
def escapedText : String :=
  "\x7b\"kind\": \"Paren\", \"line\": 4294967295, \"children\": [[\"IntLiteral\", \x7b" ++
    "\"value\": 7, \"used\": true, \"note\": \"\\u0001\\\\\\\"\\u00e9\"\x7d]]\x7d"

def escapedTree : Tree where
  nodes := #[
    ⟨⟨.intLiteral, .ofList [("note", "\x01\\\"é"), ("used", "true"), ("value", "7")], ⟨0, 0⟩⟩, [],
      some 1⟩,
    ⟨⟨.paren, {}, ⟨4294967295, 0⟩⟩, [0], none⟩]
  root := 1

/-- The number and the truth value of the text are texts in the tree, and again when it is read. -/
theorem Tree.load_toJson_escaped :
    Tree.load escapedText = .ok escapedTree ∧ Tree.load escapedTree.toJson = .ok escapedTree := by
  have read : Tree.load escapedText = .ok escapedTree := by decide +kernel
  exact ⟨read, Tree.load_toJson read⟩

end ClassCompiler
