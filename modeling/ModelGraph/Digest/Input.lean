import ModelGraph.Digest.Sha256
import ModelGraph.Json.Printer

/-!
What a structural hash is computed from.

An input is a list of bytes made of fields. Every field delimits itself: texts and digests carry
their length, lists their count, optional fields a byte that says whether they are there, and the
others have a fixed width. Each input opens with the tag of the structure it describes.
-/

namespace ModelGraph

inductive HashTag where
  | package | primitiveType | profile | stereotype | taggedValue | multiplicity | enumeration
  | enumValue | «class» | property | derivedProperty | constraint | association | function
  | parameter | database | schema | table | column | join | relationalOperation | tablePointer
  | mapping | mappingInclude | setImplementation | propertyMapping | aggregationSpecification
  | enumerationMapping | enumValueMapping | connection | runtime | service | reference
  | extension
  deriving DecidableEq, Repr

def HashTag.text : HashTag → String
  | .package => "PACKAGE"
  | .primitiveType => "PRIMITIVE_TYPE"
  | .profile => "PROFILE"
  | .stereotype => "STEREOTYPE_POINTER"
  | .taggedValue => "TAGGED_VALUE"
  | .multiplicity => "MULTIPLICITY"
  | .enumeration => "ENUMERATION"
  | .enumValue => "ENUM_VALUE"
  | .class => "CLASS"
  | .property => "PROPERTY"
  | .derivedProperty => "DERIVED_PROPERTY"
  | .constraint => "CONSTRAINT"
  | .association => "ASSOCIATION"
  | .function => "FUNCTION"
  | .parameter => "PARAMETER"
  | .database => "DATABASE"
  | .schema => "SCHEMA"
  | .table => "TABLE"
  | .column => "COLUMN"
  | .join => "JOIN"
  | .relationalOperation => "RELATIONAL_OPERATION"
  | .tablePointer => "TABLE_POINTER"
  | .mapping => "MAPPING"
  | .mappingInclude => "MAPPING_INCLUDE"
  | .setImplementation => "SET_IMPLEMENTATION"
  | .propertyMapping => "PROPERTY_MAPPING"
  | .aggregationSpecification => "AGGREGATION_SPECIFICATION"
  | .enumerationMapping => "ENUMERATION_MAPPING"
  | .enumValueMapping => "ENUM_VALUE_MAPPING"
  | .connection => "CONNECTION"
  | .runtime => "PACKAGEABLE_RUNTIME"
  | .service => "SERVICE"
  | .reference => "PACKAGEABLE_ELEMENT_POINTER"
  | .extension => "EXTENSION"

def HashTag.all : List HashTag :=
  [.package, .primitiveType, .profile, .stereotype, .taggedValue, .multiplicity, .enumeration,
    .enumValue, .class, .property, .derivedProperty, .constraint, .association, .function,
    .parameter, .database, .schema, .table, .column, .join, .relationalOperation, .tablePointer,
    .mapping, .mappingInclude, .setImplementation, .propertyMapping, .aggregationSpecification,
    .enumerationMapping, .enumValueMapping, .connection, .runtime, .service, .reference, .extension]

def HashTag.ofText? (s : String) : Option HashTag := all.find? (·.text == s)

abbrev HashInput := List UInt8

namespace HashInput

/-- Eight bytes, the lowest first; negative numbers in two's complement. -/
def word (n : Int) : HashInput :=
  let m := (n % (Nat.pow 2 64 : Nat)).toNat
  (List.range 8).map fun i => UInt8.ofNat (m / Nat.pow 256 i)

def block (bytes : List UInt8) : HashInput := word bytes.length ++ bytes

def text (s : String) : HashInput := block s.toUTF8.toList

def flag (b : Bool) : HashInput := [if b then 1 else 0]

def optional {α : Type} (write : α → HashInput) : Option α → HashInput
  | some a => 1 :: write a
  | none => [0]

def optText (s : Option String) : HashInput := optional text s

def counted {α : Type} (write : α → HashInput) (items : List α) : HashInput :=
  word items.length ++ items.flatMap write

def texts (items : List String) : HashInput := counted text items

def json (j : Json) : HashInput := text j.compact

def code (d : Digest) : HashInput := block d.bytes.toList

def optCode (d : Option Digest) : HashInput := optional code d

def codes (ds : List Digest) : HashInput := counted code ds

def tag (t : HashTag) : HashInput := text t.text

def extensionTag (name : String) : HashInput := tag .extension ++ text name

def digest (input : HashInput) : Digest := Sha256.hash input

end HashInput
end ModelGraph
