import ModelGraph.Diagnostic
import ModelGraph.Entity
import ModelGraph.Registry

namespace ModelGraph

inductive EntryKind where
  | core (c : Classifier)
  | extension (k : ElementKind)

namespace EntryKind

def ofPath? (r : Registry) (path : String) : Option EntryKind :=
  match Classifier.ofPath? path with
  | some c => some (.core c)
  | none => (r.kindByClassifier? path).map .extension

def type : EntryKind → String
  | .core c => c.type
  | .extension k => k.type

end EntryKind

structure Entry where
  entity : Entity
  kind : EntryKind

namespace Entry

def fault (code : DiagnosticCode) (path : Path) (message remark : String) (help : Option String) :
    Diagnostic :=
  { code := some code, message, labels := [{ path, message := remark }], help }

def quoted (s : String) : String := "`" ++ s ++ "`"

def duplicate (path : Path) : Diagnostic :=
  fault .duplicateEntity path ("entity " ++ quoted path.text ++ " is declared more than once")
    "duplicate entity" none

def badPath (path : Path) (f : Path.Fault) : Diagnostic :=
  fault .invalidPath path ("invalid entity path " ++ quoted path.text ++ ": " ++ f.message)
    "invalid path" none

def unknownClassifier (e : Entity) : Diagnostic :=
  fault .unknownClassifier e.path
    ("unknown classifier path " ++ quoted e.classifier ++ " of " ++ quoted e.path.text)
    "unknown classifier" (some "install the plugin providing this element kind")

def notAnObject (path : Path) : Diagnostic :=
  fault .malformedContent path ("content of " ++ quoted path.text ++ " is not a JSON object")
    "malformed content" none

def wrongType (e : Entity) (expected : String) : Diagnostic :=
  fault .typeMismatch e.path
    ("content of " ++ quoted e.path.text ++ " has type " ++ quoted (e.type?.getD "<none>") ++
      ", expected " ++ quoted expected)
    "content type mismatch"
    (some ("the classifier " ++ quoted e.classifier ++ " carries " ++ quoted expected ++
      " content"))

def name? (e : Entity) : Option String := (e.content.member? "name").bind Json.text?

/-- The package that the content gives; an empty one is none. -/
def package? (e : Entity) : Option String :=
  ((e.content.member? "package").bind Json.text?).filter fun p => !p.isEmpty

def wrongPath (e : Entity) : Diagnostic :=
  fault .contentDisagrees e.path
    ("content of " ++ quoted e.path.text ++ " declares name " ++ quoted ((name? e).getD "") ++
      " in package " ++ quoted ((package? e).getD ""))
    "content disagrees with path" none

def malformed (path : Path) : Diagnostic :=
  fault .malformedContent path
    ("malformed content of " ++ quoted path.text ++
      ": the document does not have the form of its type")
    "malformed content" none

def unknownOperation (path : Path) (operation : String) : Diagnostic :=
  fault .malformedContent path
    ("unknown operation " ++ quoted operation ++ " in " ++ quoted path.text) "in this mapping"
    (some "expected STORE_UNION, ROUTER_UNION, INHERITANCE or MERGE")

def unknownMappingType (path : Path) (type : String) : Diagnostic :=
  fault .unknownClassMappingType path
    ("unknown class mapping type " ++ quoted type ++ " in " ++ quoted path.text) "in this mapping"
    (some "install the plugin providing this class mapping type")

/-- The first fault in the header of an entity: its content is an object with the type of the
classifier, and names the element and its package as the path does. -/
def headerFault? (e : Entity) (kind : EntryKind) : Option Diagnostic :=
  if !e.content.isObject then some (notAnObject e.path)
  else if e.type? ≠ some kind.type then some (wrongType e kind.type)
  else if name? e ≠ some e.path.name ∨ package? e ≠ e.path.package?.map Path.text then
    some (wrongPath e)
  else none

def ofEntity (r : Registry) (seen : List Path) (e : Entity) : Except Diagnostic Entry :=
  if seen.contains e.path then .error (duplicate e.path)
  else
    match e.path.fault? with
    | some f => .error (badPath e.path f)
    | none =>
      match EntryKind.ofPath? r e.classifier with
      | none => .error (unknownClassifier e)
      | some kind =>
        match headerFault? e kind with
        | some d => .error d
        | none => .ok { entity := e, kind }

def ofModel (r : Registry) : (seen : List Path) → Model → List (Except Diagnostic Entry)
  | _, [] => []
  | seen, e :: rest => ofEntity r seen e :: ofModel r (e.path :: seen) rest

def require {α : Type} (path : Path) : Option α → Except Diagnostic α
  | some a => .ok a
  | none => .error (malformed path)

/-- Reads a class mapping of a mapping, and takes slots for what is within it. -/
def classMapping (r : Registry) (path : Path) (j : Json) (m : Mapping) :
    Except Diagnostic (SetImplementation × Mapping) := do
  let type := ((j.member? "_type").bind Json.text?).getD ""
  if ClassMappingDocument.types.contains type then
    let d ← require path (ClassMappingDocument.ofJson? j)
    (d.intern m).mapError (unknownOperation path)
  else
    match r.mapping? type with
    | none => throw (unknownMappingType path type)
    | some k =>
      let header ← require path (ClassMappingHeader.ofJson? j)
      let content ← require path (k.read (j.without ["_type", "id", "class", "root"]))
      return (header.implementation (.extension content), m)

def addClassMappings (r : Registry) (path : Path) : List Json → Mapping → Except Diagnostic Mapping
  | [], m => .ok m
  | j :: rest, m => do
    let (s, m) ← classMapping r path j m
    addClassMappings r path rest (m.addTop s)

def mapping (r : Registry) (path : Path) (j : Json) : Except Diagnostic Mapping := do
  let d ← require path (MappingDocument.ofJson? j)
  let m ← addClassMappings r path d.classMappings { includes := d.includes }
  return { m with enumerationMappings := d.enumerationMappings }

def coreBody (r : Registry) (path : Path) (j : Json) : Classifier → Except Diagnostic Body
  | .profile => require path ((Profile.ofJson? j).map .profile)
  | .enumeration => require path ((Enumeration.ofJson? j).map .enumeration)
  | .class => require path ((Class.ofJson? j).map .class)
  | .association => require path ((Association.ofJson? j).map .association)
  | .function => require path ((Function.ofJson? j).map .function)
  | .database => require path ((Database.ofJson? j).map .database)
  | .mapping => (mapping r path j).map .mapping
  | .connection => require path ((Connection.ofElementJson? j).map .connection)
  | .runtime => require path ((Runtime.ofElementJson? j).map .runtime)
  | .service => require path ((Service.ofJson? j).map .service)

def body (r : Registry) (e : Entry) : Except Diagnostic Body :=
  match e.kind with
  | .core c => coreBody r e.entity.path e.entity.document c
  | .extension k => require e.entity.path ((k.read e.entity.document).map .extension)

end Entry
end ModelGraph
