import ModelGraph.Error

namespace ModelGraph

inductive Severity where
  | warning
  | error
  deriving DecidableEq, Repr

namespace Severity

def text : Severity → String
  | .warning => "warning"
  | .error => "error"

def max : Severity → Severity → Severity
  | .warning, .warning => .warning
  | _, _ => .error

end Severity

inductive DiagnosticCode where
  | malformedCollection | duplicateEntity | invalidPath | contentDisagrees | unknownClassifier
  | malformedContent | typeMismatch
  | duplicatePath | pathConflict
  | unresolvedReference | unknownStereotype | unknownTag | unknownTable | unknownJoin
  | classMappingNotFound | propertyNotFound | duplicateClassMappingId | unknownClassMappingType
  | enumerationMappingNotFound
  | readOnlyModified | disposedAccess
  deriving DecidableEq, Repr

namespace DiagnosticCode

def all : List DiagnosticCode :=
  [.malformedCollection, .duplicateEntity, .invalidPath, .contentDisagrees, .unknownClassifier,
    .malformedContent, .typeMismatch, .duplicatePath, .pathConflict, .unresolvedReference,
    .unknownStereotype, .unknownTag, .unknownTable, .unknownJoin, .classMappingNotFound,
    .propertyNotFound, .duplicateClassMappingId, .unknownClassMappingType,
    .enumerationMappingNotFound, .readOnlyModified, .disposedAccess]

/-- The code as it is written. The hundreds tell where a fault shows: in the entities, in
registration, in references, in mappings, or in the life of an element. -/
def text : DiagnosticCode → String
  | .malformedCollection => "E001"
  | .duplicateEntity => "E002"
  | .invalidPath => "E003"
  | .contentDisagrees => "E004"
  | .unknownClassifier => "E005"
  | .malformedContent => "E006"
  | .typeMismatch => "E007"
  | .duplicatePath => "E100"
  | .pathConflict => "E101"
  | .unresolvedReference => "E200"
  | .unknownStereotype => "E201"
  | .unknownTag => "E202"
  | .unknownTable => "E203"
  | .unknownJoin => "E204"
  | .classMappingNotFound => "E300"
  | .propertyNotFound => "E301"
  | .duplicateClassMappingId => "E302"
  | .unknownClassMappingType => "E303"
  | .enumerationMappingNotFound => "E304"
  | .readOnlyModified => "E400"
  | .disposedAccess => "E401"

def ofText? (text : String) : Option DiagnosticCode := all.find? (·.text == text)

def description : DiagnosticCode → String
  | .malformedCollection => "malformed entity collection"
  | .duplicateEntity => "duplicate entity path"
  | .invalidPath => "invalid entity path"
  | .contentDisagrees => "content disagrees with path"
  | .unknownClassifier => "unknown classifier path"
  | .malformedContent => "malformed entity content"
  | .typeMismatch => "content type mismatch"
  | .duplicatePath => "duplicate element path"
  | .pathConflict => "path conflict"
  | .unresolvedReference => "unresolved reference"
  | .unknownStereotype => "unknown stereotype"
  | .unknownTag => "unknown tag"
  | .unknownTable => "unknown table"
  | .unknownJoin => "unknown join"
  | .classMappingNotFound => "class mapping not found"
  | .propertyNotFound => "mapped property not found"
  | .duplicateClassMappingId => "duplicate class mapping id"
  | .unknownClassMappingType => "unknown class mapping type"
  | .enumerationMappingNotFound => "enumeration mapping not found"
  | .readOnlyModified => "read-only element modified"
  | .disposedAccess => "disposed element accessed"

/-- The code of an error of a graph; a taken extension key has none. -/
def ofError? : GraphError → Option DiagnosticCode
  | .duplicatePath _ => some .duplicatePath
  | .invalidPath _ _ => some .pathConflict
  | .elementNotFound _ _ => some .unresolvedReference
  | .unresolvedReference _ => some .unresolvedReference
  | .referenceResolution _ _ _ => some .unresolvedReference
  | .classMappingNotFound _ _ => some .classMappingNotFound
  | .propertyNotFound _ _ => some .propertyNotFound
  | .propertyMappingNotFound _ _ => some .propertyNotFound
  | .enumerationMappingNotFound _ _ => some .enumerationMappingNotFound
  | .immutableElementMutation _ => some .readOnlyModified
  | .disposedElementAccess _ => some .disposedAccess
  | .duplicateExtension _ => none

end DiagnosticCode

structure Label where
  path : Path
  message : String
  primary : Bool := true
  deriving DecidableEq, Repr

structure Diagnostic where
  severity : Severity := .error
  code : Option DiagnosticCode := none
  message : String
  labels : List Label := []
  help : Option String := none
  /-- The error of the graph that the diagnostic reports. -/
  cause : Option GraphError := none
  deriving DecidableEq, Repr

namespace Diagnostic

def isError (d : Diagnostic) : Bool := d.severity == .error

def text (d : Diagnostic) : String :=
  let code := match d.code with | some code => "[" ++ code.text ++ "]" | none => ""
  d.severity.text ++ code ++ ": " ++ d.message

def errorRemark : GraphError → String
  | .duplicatePath _ => "already defined"
  | .invalidPath _ _ => "invalid path"
  | .elementNotFound _ _ => "not found"
  | .unresolvedReference _ => "not found"
  | .referenceResolution _ _ _ => "not found"
  | .classMappingNotFound _ _ => "in this mapping"
  | .enumerationMappingNotFound _ _ => "in this mapping"
  | .propertyNotFound _ _ => "on this element"
  | .immutableElementMutation _ => "frozen"
  | .disposedElementAccess _ => "disposed"
  | .propertyMappingNotFound _ _ => "here"
  | .duplicateExtension _ => "here"

/-- Labels at the element that holds the faulty reference and at the one the error is about; a
single label where these are one and the same or only one is known. -/
def errorLabels (e : GraphError) (owner : Option Path) : List Label :=
  match owner, e.path? with
  | some owner, some path =>
    if owner = path then [{ path := owner, message := errorRemark e }]
    else
      [{ path := owner, message := "referenced here" },
        { path, message := "target", primary := false }]
  | some owner, none => [{ path := owner, message := errorRemark e }]
  | none, some path => [{ path, message := errorRemark e }]
  | none, none => []

def errorHelp : GraphError → Option String
  | .referenceResolution _ expected (some found) =>
    some ("the element at this path is a " ++ found ++ ", not a " ++ expected)
  | _ => none

def ofError (e : GraphError) (owner : Option Path) : Diagnostic where
  code := DiagnosticCode.ofError? e
  message := e.message
  labels := errorLabels e owner
  help := errorHelp e
  cause := some e

/-- One line for several diagnostics: the first, and how many more there are. -/
def summary : List Diagnostic → String
  | [] => ""
  | [d] => d.text
  | d :: rest => d.text ++ " (+" ++ toString rest.length ++ " more)"

def worst : List Diagnostic → Option Severity
  | [] => none
  | d :: rest =>
    match worst rest with
    | some s => some (d.severity.max s)
    | none => some d.severity

end Diagnostic

abbrev Checked (α : Type) := Except (List Diagnostic) α

/-- A value, unless an error is among the diagnostics; then all of them are reported. -/
def Checked.unless {α : Type} (diagnostics : List Diagnostic) (a : α) : Checked α :=
  if diagnostics.any Diagnostic.isError then .error diagnostics else .ok a

end ModelGraph
