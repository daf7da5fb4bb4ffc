import ModelGraph.Mapping.Id
import ModelGraph.Document

namespace ModelGraph

inductive SourceValue where
  | text (value : String)
  | integer (value : Int)
  | enumValue (enumeration : Reference .enumeration) (value : String)
  deriving DecidableEq, Repr

namespace SourceValue

def links : SourceValue → List Link
  | .text _ => []
  | .integer _ => []
  | .enumValue enumeration _ => [enumeration.link]

def rebind (f : Rebinding) : SourceValue → SourceValue
  | .text value => .text value
  | .integer value => .integer value
  | .enumValue enumeration value => .enumValue (f _ enumeration) value

def hashInput : SourceValue → HashInput
  | .text value => .text "string" ++ .text value
  | .integer value => .text "integer" ++ .word value
  | .enumValue enumeration value => .text "enum" ++ .text enumeration.path.text ++ .text value

def ofJson? (j : Json) : Option SourceValue := do
  let (tag, j) ← Json.tagged? ["stringSourceValue", "integerSourceValue", "enumSourceValue"] false j
  match tag with
  | "stringSourceValue" =>
    let r ← Record.ofJson? ["value"] j
    return .text (← r.text "value")
  | "integerSourceValue" =>
    let r ← Record.ofJson? ["value"] j
    return .integer (← r.required "value" Json.int64?)
  | "enumSourceValue" =>
    let r ← Record.ofJson? ["enumeration", "value"] j
    return .enumValue (← r.required "enumeration" Reference.ofJson?) (← r.text "value")
  | _ => none

def toJson (names : Naming) : SourceValue → Json
  | .text value => Record.tagged "stringSourceValue" (.field "value" (.str value))
  | .integer value => Record.tagged "integerSourceValue" (.field "value" (.num (.int value)))
  | .enumValue enumeration value =>
    Record.tagged "enumSourceValue"
      (.field "enumeration" (enumeration.toJson names) ++ .field "value" (.str value))

end SourceValue

/-- The source values of one value of an enumeration. -/
structure EnumValueMapping where
  enumValue : String
  sources : List SourceValue := []
  deriving DecidableEq, Repr

namespace EnumValueMapping

def hashInput (m : EnumValueMapping) : HashInput :=
  .tag .enumValueMapping ++ .text m.enumValue ++ m.sources.flatMap SourceValue.hashInput

def digest (m : EnumValueMapping) : Digest := m.hashInput.digest

def ofJson? (j : Json) : Option EnumValueMapping := do
  let r ← Record.ofJson? ["enumValue", "sourceValues"] j
  return {
    enumValue := ← r.text "enumValue"
    sources := ← r.list "sourceValues" SourceValue.ofJson? }

def toJson (names : Naming) (m : EnumValueMapping) : Json :=
  Record.toJson (.field "enumValue" (.str m.enumValue) ++
    .listField "sourceValues" (m.sources.map (·.toJson names)))

end EnumValueMapping

structure EnumerationMapping where
  id : MappingId
  enumeration : Reference .enumeration
  values : List EnumValueMapping := []
  deriving DecidableEq, Repr

namespace EnumerationMapping

def value? (m : EnumerationMapping) (name : String) : Option EnumValueMapping :=
  m.values.find? (·.enumValue == name)

def links (m : EnumerationMapping) : List Link :=
  m.enumeration.link :: m.values.flatMap fun v => v.sources.flatMap SourceValue.links

def rebind (f : Rebinding) (m : EnumerationMapping) : EnumerationMapping :=
  { m with
    enumeration := f _ m.enumeration
    values := m.values.map fun v => { v with sources := v.sources.map (·.rebind f) } }

def hashInput (m : EnumerationMapping) : HashInput :=
  .tag .enumerationMapping ++ .optText m.id.written ++ .text m.enumeration.path.text ++
    .codes (m.values.map EnumValueMapping.digest)

def digest (m : EnumerationMapping) : Digest := m.hashInput.digest

def ofJson? (j : Json) : Option EnumerationMapping := do
  let r ← Record.ofJson? ["id", "enumeration", "enumValueMappings"] j
  let id ← r.optText "id"
  let enumeration ← r.required "enumeration" Reference.ofJson?
  return {
    id := .ofOption id enumeration.path
    enumeration
    values := ← r.list "enumValueMappings" EnumValueMapping.ofJson? }

def toJson (names : Naming) (m : EnumerationMapping) : Json :=
  Record.toJson (.optField "id" (m.id.written.map .str) ++
    .field "enumeration" (m.enumeration.toJson names) ++
    .listField "enumValueMappings" (m.values.map (·.toJson names)))

end EnumerationMapping
end ModelGraph
