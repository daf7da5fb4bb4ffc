import ModelGraph.Reference
import ModelGraph.Document

/-!
Serialization schemas: how instances of a root class are written out, with the other classes that
may occur and the names under which properties are written.
-/

namespace ModelGraph

inductive SchemaFormat where
  | json
  | xml
  deriving DecidableEq, Repr

namespace SchemaFormat

def text : SchemaFormat → String
  | .json => "JSON"
  | .xml => "XML"

def ofJson? (j : Json) : Option SchemaFormat :=
  match Json.choice? ["JSON", "XML"] false j with
  | some "JSON" => some .json
  | some "XML" => some .xml
  | _ => none

end SchemaFormat

/-- The name under which a property of a class is written. -/
structure FieldName where
  owner : Reference .class
  property : String
  written : String
  deriving DecidableEq, Repr

namespace FieldName

def hashInput (n : FieldName) : HashInput :=
  .code n.owner.digest ++ .text n.property ++ .text n.written

def ofJson? (j : Json) : Option FieldName := do
  let r ← Record.ofJson? ["class", "property", "serializedName"] j
  return {
    owner := ← r.required "class" Reference.ofJson?
    property := ← r.text "property"
    written := ← r.text "serializedName" }

def toJson (names : Naming) (n : FieldName) : Json :=
  Record.toJson (.field "class" (n.owner.toJson names) ++ .field "property" (.str n.property) ++
    .field "serializedName" (.str n.written))

end FieldName

structure SerializerSchema where
  format : SchemaFormat
  store : Option (Reference .store) := none
  root : Reference .class
  included : List (Reference .class) := []
  fieldNames : List FieldName := []
  deriving DecidableEq, Repr

namespace SerializerSchema

def covers (s : SerializerSchema) (h : Handle) : Bool :=
  s.root.pointsTo h || s.included.any (·.pointsTo h)

/-- The name under which a property is written: its field name, if it has one. -/
def writtenName (s : SerializerSchema) (h : Handle) (property : String) : String :=
  match s.fieldNames.find? fun n => n.owner.pointsTo h && n.property == property with
  | some n => n.written
  | none => property

/-- The schema without the included classes and field names bound to a dead class. The root class
stays. -/
def removeDead (isDead : Handle → Bool) (s : SerializerSchema) : SerializerSchema :=
  { s with
    included := s.included.filter fun c => !c.target.any isDead
    fieldNames := s.fieldNames.filter fun n => !n.owner.target.any isDead }

def hasDead (isDead : Handle → Bool) (s : SerializerSchema) : Bool :=
  s.included.any (·.target.any isDead) || s.fieldNames.any (·.owner.target.any isDead)

def links (s : SerializerSchema) : List Link :=
  (match s.store with | some r => [r.link] | none => []) ++
    s.root.link :: (s.included.map Reference.link ++ s.fieldNames.map (·.owner.link))

def rebind (f : Rebinding) (s : SerializerSchema) : SerializerSchema where
  format := s.format
  store := s.store.map (f _)
  root := f _ s.root
  included := s.included.map (f _)
  fieldNames := s.fieldNames.map fun n => { n with owner := f _ n.owner }

def hashInput (path : Path) (s : SerializerSchema) : HashInput :=
  .extensionTag "SERIALIZER_SCHEMA" ++ .text path.text ++ .text s.format.text ++
    .optCode (s.store.map Reference.digest) ++ .code s.root.digest ++
    .codes (s.included.map Reference.digest) ++ s.fieldNames.flatMap FieldName.hashInput

def ofJson? (j : Json) : Option SerializerSchema := do
  let r ← Record.ofJson? ["format", "store", "rootClass", "includedClasses", "fieldNames"] j
  return {
    format := ← r.required "format" SchemaFormat.ofJson?
    store := ← r.optional "store" Reference.ofJson?
    root := ← r.required "rootClass" Reference.ofJson?
    included := ← r.list "includedClasses" Reference.ofJson?
    fieldNames := ← r.list "fieldNames" FieldName.ofJson? }

def toJson (names : Naming) (s : SerializerSchema) : Json :=
  Record.toJson (.field "format" (.str s.format.text) ++
    .optField "store" (s.store.map (·.toJson names)) ++ .field "rootClass" (s.root.toJson names) ++
    .listField "includedClasses" (s.included.map (·.toJson names)) ++
    .listField "fieldNames" (s.fieldNames.map (·.toJson names)))

end SerializerSchema
end ModelGraph
