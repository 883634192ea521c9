import ClassCompiler.Json.Reader
import ClassCompiler.Json.Writer
import ClassCompiler.Syntax.Draft

/-! The JSON form of a tree. A node is an object with the fields kind, attributes,
children, line and column, or an array of these in that order. Reading a text first gives
a document, and only then are its kinds looked at. -/

namespace ClassCompiler
set_option autoImplicit false

/-- The value of an attribute in a document. -/
inductive AttributeValue where
  | flag (value : Bool)
  | integer (value : Int)
  | text (value : String)
  deriving DecidableEq, Repr

namespace AttributeValue

/-- The text under which a tree keeps the value. -/
def toText : AttributeValue → String
  | flag true => "true"
  | flag false => "false"
  | integer value => toString value
  | text value => value

def ofJson? : Json → Option AttributeValue
  | .bool value => some (flag value)
  | .string value => value.map text
  | json => (json.integer?.filter Text.fitsInt64).map integer

end AttributeValue

/-- A node of a document, its kind still a name. -/
inductive Document where
  | node (kind : String) (attributes : NameMap AttributeValue) (children : List Document)
      (location : Location)

namespace Document

/-- The number of containers that may be nested in each other. -/
def nestingLimit : Nat := 127

/-- The five fields of a node, those that are left out as `none`. -/
structure Fields where
  kind : Json
  attributes : Option Json := none
  children : Option Json := none
  line : Option Json := none
  column : Option Json := none

/-- The one value of a member, `none` inside when it is left out; a second value is
refused. -/
def unique? (json : Json) (name : String) : Option (Option Json) :=
  match json.members name with
  | [] => some none
  | [value] => some (some value)
  | _ => none

/-- The fields of a node in either of its two forms. Members with other names are passed
over, but their names have to be texts. -/
def fields? : Json → Option Fields
  | .object members => do
    let json := Json.object members
    if members.any fun member => member.1.isNone then none
    else
      return {
        kind := ← (← unique? json "kind")
        attributes := ← unique? json "attributes"
        children := ← unique? json "children"
        line := ← unique? json "line"
        column := ← unique? json "column" }
  | .array [kind] => some { kind }
  | .array [kind, attributes] => some { kind, attributes }
  | .array [kind, attributes, children] => some { kind, attributes, children }
  | .array [kind, attributes, children, line] => some { kind, attributes, children, line }
  | .array [kind, attributes, children, line, column] =>
    some { kind, attributes, children, line, column }
  | _ => none

def position? : Option Json → Option UInt32
  | none => some 0
  | some json => do
    let value ← json.integer?
    if 0 ≤ value && value < 4294967296 then some (UInt32.ofNat value.toNat) else none

def attribute? (member : Option String × Json) : Option (String × AttributeValue) := do
  return (← member.1, ← AttributeValue.ofJson? member.2)

/-- The attributes of a node; of two with one key the later counts. -/
def attributes? (room : Nat) : Option Json → Option (NameMap AttributeValue)
  | none => some {}
  | some (.object members) =>
    if room = 0 then none else (members.mapM attribute?).map NameMap.ofList
  | some _ => none

def children? (room : Nat) (readChild : Json → Option Document) :
    Option Json → Option (List Document)
  | none => some []
  | some (.array items) => if room = 0 then none else items.mapM readChild
  | some _ => none

/-- A node, given the room inside it and how to read a child. -/
def assemble? (room : Nat) (readChild : Json → Option Document) (json : Json) :
    Option Document := do
  let fields ← fields? json
  match fields.kind with
  | .string (some kind) =>
    return .node kind (← attributes? room fields.attributes)
      (← children? room readChild fields.children)
      ⟨← position? fields.line, ← position? fields.column⟩
  | _ => none

/-- The document that a value denotes, with room for a number of nested containers. A node
takes one, and the array of its children another. -/
def ofJson? : Nat → Json → Option Document
  | 0, _ => none
  | 1, json => assemble? 0 (fun _ => none) json
  | room + 2, json => assemble? (room + 1) (ofJson? room) json

def parse? (text : String) : Option Document := (Json.parse? text).bind (ofJson? nestingLimit)

mutual

/-- Makes the nodes of a document. A node's own kind is looked at first, then its children
are made, and the node last. -/
def build : Document → ExceptT Fault Construction NodeId
  | .node kind attributes children location => do
    match Kind.ofName? kind with
    | none => throw (.unknownKind kind)
    | some kind =>
      let children ← buildAll children
      let attrs := attributes.entries.map fun (key, value) => (key, value.toText)
      Draft.make kind location attrs children

def buildAll : List Document → ExceptT Fault Construction (List NodeId)
  | [] => return []
  | document :: documents => do
    let id ← build document
    return id :: (← buildAll documents)

end

def toTree (document : Document) : Except Fault Tree :=
  match (build document).run.run {} with
  | (.ok root, draft) => .ok (draft.finish root)
  | (.error fault, _) => .error fault

mutual

/-- The document of a term; its attributes are texts. -/
def ofTerm : Term → Document
  | .node _ label children =>
    .node label.kind.name (label.attrs.mapValues fun _ value => .text value) (ofTerms children)
      label.location

def ofTerms : List Term → List Document
  | [] => []
  | term :: terms => ofTerm term :: ofTerms terms

end

def attributeJson : AttributeValue → Json
  | .flag value => .bool value
  | .integer value => .number (toString value)
  | .text value => .text value

mutual

def toJson : Document → Json
  | .node kind attributes children location =>
    let attributes := attributes.entries.map fun (key, value) => (some key, attributeJson value)
    let items := toJsonAll children
    .object ([(some "kind", .text kind)]
      ++ (if attributes.isEmpty then [] else [(some "attributes", .object attributes)])
      ++ (if items.isEmpty then [] else [(some "children", .array items)])
      ++ [(some "line", .nat location.line.toNat), (some "column", .nat location.column.toNat)])

def toJsonAll : List Document → List Json
  | [] => []
  | document :: documents => toJson document :: toJsonAll documents

end

end Document

inductive LoadError where
  | notADocument
  | malformed (fault : Fault)
  deriving DecidableEq, Repr

def Tree.load (text : String) : Except LoadError Tree :=
  match Document.parse? text with
  | none => .error .notADocument
  | some document => document.toTree.mapError .malformed

/-- The text of everything at and below the root. -/
def Tree.toJson (tree : Tree) : String := (Document.ofTerm tree.rootTerm).toJson.render

end ClassCompiler
