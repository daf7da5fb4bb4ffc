import ModelGraph.Document
import ModelGraph.Entity

namespace ModelGraph

/-- A form of documents, told on canonical values. -/
abbrev Form := Json → Bool

/-- The members of a form: the name of each, and what may stand there. -/
abbrev Fields := List (String × (Option Json → Bool))

namespace Form

def any : Form := fun _ => true

def text : Form
  | .str _ => true
  | _ => false

def exactly (s : String) : Form
  | .str t => t == s
  | _ => false

def flag : Form
  | .bool _ => true
  | _ => false

def int : Form
  | .num (.int _) => true
  | _ => false

def double : Form
  | .num (.double _) => true
  | _ => false

def list (item : Form) : Form
  | .arr items => items.all item
  | _ => false

def needed (f : Form) : Option Json → Bool
  | some j => f j
  | none => false

def optional (f : Form) : Option Json → Bool
  | some j => f j
  | none => true

/-- A list, which is not there when it is empty. -/
def listed (item : Form) : Option Json → Bool := optional (list item)

/-- Any value or none. -/
def free : Option Json → Bool := fun _ => true

def record (fields : Fields) : Form
  | .obj members => fields.all fun f => f.2 (members.lookup f.1)
  | _ => false

/-- A record whose variant a text names. -/
def variant (fields : String → Option Fields) : Form
  | .obj members =>
    match members.lookup "_type" with
    | some (.str tag) => (fields tag).any fun fs => record fs (.obj members)
    | _ => false
  | _ => false

def stereotype : Form := record [("profile", needed text), ("value", needed text)]

def taggedValue : Form := record [("tag", needed stereotype), ("value", needed text)]

def annotations : Fields :=
  [("stereotypes", listed stereotype), ("taggedValues", listed taggedValue)]

def profile : Fields := [("stereotypes", listed text), ("tags", listed text)]

def multiplicity : Form := record [("lowerBound", needed int), ("upperBound", optional int)]

def property : Form :=
  record ([("name", needed text), ("type", needed text), ("multiplicity", needed multiplicity)] ++
    annotations)

def derivedProperty : Form :=
  record ([("name", needed text), ("parameters", free), ("returnType", needed text),
    ("returnMultiplicity", needed multiplicity), ("body", free)] ++ annotations)

def constraint : Form := record [("name", needed text), ("functionDefinition", free)]

def «class» : Fields :=
  [("superTypes", listed text), ("properties", listed property),
    ("qualifiedProperties", listed derivedProperty), ("constraints", listed constraint)] ++
      annotations

def association : Fields :=
  [("properties", listed property), ("qualifiedProperties", listed derivedProperty)] ++ annotations

def enumValue : Form := record (("value", needed text) :: annotations)

def enumeration : Fields := ("values", listed enumValue) :: annotations

def parameter : Form :=
  record [("_type", optional text), ("name", needed text), ("class", needed text),
    ("multiplicity", needed multiplicity)]

def function : Fields :=
  [("parameters", listed parameter), ("returnType", needed text),
    ("returnMultiplicity", needed multiplicity), ("body", listed any)] ++ annotations

/-- A text without an opening parenthesis. -/
def plainName : Form
  | .str s => !s.toList.contains '('
  | _ => false

/-- No argument, a size alone, or a precision with a scale. -/
def arguments (j : Json) : Bool :=
  if (j.member? "size").isSome then
    (j.member? "precision").isNone && (j.member? "scale").isNone
  else (j.member? "precision").isSome == (j.member? "scale").isSome

def columnType : Form := fun j =>
  record [("_type", needed plainName), ("size", optional int), ("precision", optional int),
    ("scale", optional int)] j && arguments j

def column : Form :=
  record [("name", needed text), ("type", needed columnType), ("nullable", needed flag)]

def table : Form :=
  record [("name", needed text), ("columns", listed column), ("primaryKey", listed text)]

def schema : Form := record [("name", needed text), ("tables", listed table)]

def tablePointer : Form :=
  record [("_type", needed (exactly "Table")), ("table", needed text), ("schema", needed text),
    ("database", needed text)]

def joinPointer : Form :=
  record [("db", needed text), ("name", needed text), ("joinType", optional text)]

/-- A relational expression in which less than `n` containers nest. -/
def operation : (n : Nat) → Form
  | 0 => fun _ => false
  | n + 1 => variant fun
    | "column" => some [("table", needed tablePointer), ("tableAlias", needed text),
        ("column", needed text)]
    | "dynaFunc" => some [("funcName", needed text), ("parameters", listed (operation n))]
    | "literal" => some [("value", free)]
    | "elemtWithJoins" => some [("joins", listed joinPointer),
        ("relationalElement", optional (operation n))]
    | _ => none

def join (n : Nat) : Form := record [("name", needed text), ("operation", needed (operation n))]

def database (n : Nat) : Fields :=
  [("includedStores", listed text), ("schemas", listed schema), ("joins", listed (join n))]

def sourceValue : Form := variant fun
  | "stringSourceValue" => some [("value", needed text)]
  | "integerSourceValue" => some [("value", needed int)]
  | "enumSourceValue" => some [("enumeration", needed text), ("value", needed text)]
  | _ => none

def enumValueMapping : Form :=
  record [("enumValue", needed text), ("sourceValues", listed sourceValue)]

def enumerationMapping : Form :=
  record [("id", optional text), ("enumeration", needed text),
    ("enumValueMappings", listed enumValueMapping)]

def mappingInclude : Form :=
  record [("_type", needed (exactly "mappingIncludeMapping")), ("includedMapping", needed text)]

def aggregateValue : Form := record [("mapFn", free), ("aggregateFn", free)]

def aggregationSpecification : Form :=
  record [("canAggregate", needed flag), ("groupByFunctions", listed any),
    ("aggregateValues", listed aggregateValue)]

def propertyPointer : Form := record [("class", needed text), ("property", needed text)]

/-- A property mapping in which less than `n` containers nest. -/
def propertyMapping : (n : Nat) → Form
  | 0 => fun _ => false
  | n + 1 => variant fun
    | "purePropertyMapping" => some [("property", needed propertyPointer), ("source", optional text),
        ("target", optional text), ("enumMappingId", optional text), ("transform", free),
        ("explodeProperty", optional flag)]
    | "relationalPropertyMapping" => some [("property", needed propertyPointer),
        ("source", optional text), ("target", optional text), ("enumMappingId", optional text),
        ("relationalOperation", needed (operation n))]
    | "embeddedPropertyMapping" => some [("property", needed propertyPointer),
        ("source", optional text), ("id", needed text), ("class", needed text),
        ("root", needed flag), ("propertyMappings", listed (propertyMapping n))]
    | _ => none

def servicePointer : Form :=
  record [("service", needed (record [("serviceStore", needed text), ("service", needed text)]))]

def classMappingHeader : Fields :=
  [("id", optional text), ("class", needed text), ("root", needed flag)]

def aggregate (part : Form) : Form :=
  record [("index", needed int), ("aggregateSpecification", needed aggregationSpecification),
    ("setImplementation", needed part)]

/-- A class mapping in which less than `n` containers nest. -/
def classMapping : (n : Nat) → Form
  | 0 => fun _ => false
  | n + 1 => variant fun
    | "pureInstance" => some (classMappingHeader ++ [("srcClass", optional text), ("filter", free),
        ("propertyMappings", listed (propertyMapping n))])
    | "relational" => some (classMappingHeader ++ [("distinct", needed flag),
        ("mainTable", optional tablePointer), ("primaryKey", listed (operation n)),
        ("propertyMappings", listed (propertyMapping n))])
    | "aggregationAware" => some (classMappingHeader ++
        [("mainSetImplementation", needed (classMapping n)),
          ("aggregateSetImplementations", listed (aggregate (classMapping n))),
          ("propertyMappings", listed (propertyMapping n))])
    | "operation" => some (classMappingHeader ++ [("operation", needed text),
        ("parameters", listed text)])
    | "serviceStore" => some (classMappingHeader ++ [("servicesMapping", listed servicePointer)])
    | _ => none

def mapping (n : Nat) : Fields :=
  [("includedMappings", listed mappingInclude), ("classMappings", listed (classMapping n)),
    ("enumerationMappings", listed enumerationMapping)]

def connection : Fields := [("connectionValue", needed any)]

def pointer (type : String) : Form :=
  record [("type", needed (exactly type)), ("path", needed text)]

def identifiedConnection : Form := record [("id", needed text), ("connection", needed any)]

def storeConnections : Form :=
  record [("store", needed (pointer "STORE")), ("storeConnections", listed identifiedConnection)]

def runtimeDocument : Form :=
  record [("_type", needed (exactly "engineRuntime")), ("mappings", listed (pointer "MAPPING")),
    ("connections", listed storeConnections)]

def runtime : Fields := [("runtimeValue", needed runtimeDocument)]

def runtimeValue : Form := fun j =>
  record [("_type", needed (exactly "runtimePointer")), ("runtime", needed text)] j ||
    runtimeDocument j

def execution : Form :=
  record [("_type", needed (exactly "pureSingleExecution")), ("func", free),
    ("mapping", needed text), ("runtime", needed runtimeValue)]

def service : Fields :=
  [("pattern", needed text), ("documentation", needed text), ("owners", listed text),
    ("autoActivateUpdates", needed flag), ("execution", optional execution)] ++ annotations

def textElement : Fields := [("type", needed text), ("content", needed text)]

def pair (first second : String) : Form := record [(first, needed double), (second, needed double)]

def classView : Form :=
  record [("id", needed text), ("class", needed text), ("position", needed (pair "x" "y")),
    ("rectangle", needed (pair "width" "height"))]

def generalizationView : Form :=
  record [("sourceView", needed text), ("targetView", needed text)]

def diagram : Fields :=
  [("classViews", listed classView), ("generalizationViews", listed generalizationView)]

def serviceParameter : Form :=
  record [("name", needed text), ("location", needed text), ("required", needed flag)]

/-- A service or a group of services in which less than `n` containers nest. -/
def serviceNode : (n : Nat) → Form
  | 0 => fun _ => false
  | n + 1 => variant fun
    | "service" => some [("id", needed text), ("path", needed text), ("method", needed text),
        ("parameters", listed serviceParameter)]
    | "serviceGroup" => some [("id", needed text), ("path", needed text),
        ("elements", listed (serviceNode n))]
    | _ => none

def serviceStore (n : Nat) : Fields :=
  [("includedStores", listed text), ("description", optional text),
    ("elements", listed (serviceNode n))]

def fieldName : Form :=
  record [("class", needed text), ("property", needed text), ("serializedName", needed text)]

def serializerSchema : Fields :=
  [("format", needed text), ("store", optional text), ("rootClass", needed text),
    ("includedClasses", listed text), ("fieldNames", listed fieldName)]

/-- The documents of entities, by the type of their content. -/
def document (n : Nat) : String → Option Fields
  | "profile" => some profile
  | "Enumeration" => some enumeration
  | "class" => some «class»
  | "association" => some association
  | "function" => some function
  | "relational" => some (database n)
  | "mapping" => some (mapping n)
  | "connection" => some connection
  | "runtime" => some runtime
  | "service" => some service
  | "text" => some textElement
  | "diagram" => some diagram
  | "serviceStore" => some (serviceStore n)
  | "serializerSchema" => some serializerSchema
  | _ => none

/-- A text that is not empty. -/
def nonempty : Form
  | .str s => !s.isEmpty
  | _ => false

end Form

/-- The content is spelled as contents are written: by the form of its type, and with no package
where it would be an empty text. -/
def Entity.isSpelled (e : Entity) : Bool :=
  Form.variant (Form.document (e.content.depth + 1)) e.content.canonical &&
    Form.optional Form.nonempty (e.content.canonical.member? "package")

end ModelGraph
