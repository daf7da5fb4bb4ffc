import ModelGraph.Registry

namespace ModelGraph

inductive Preset where
  | text
  | diagram
  | serviceStore
  | serializer
  deriving DecidableEq, Repr

namespace Preset

def all : List Preset := [.text, .diagram, .serviceStore, .serializer]

def name : Preset → String
  | .text => "text"
  | .diagram => "diagram"
  | .serviceStore => "service-store"
  | .serializer => "serializer"

def ofName? (name : String) : Option Preset := all.find? (·.name == name)

def wrongBody (expected : String) : String := "element body is not a " ++ expected

def textKind : ElementKind where
  tag := "Text"
  classifier := "meta::pure::metamodel::text::Text"
  type := "text"
  read j := (TextElement.ofJson? j).map .text
  write _ e :=
    match e with
    | .text t => .ok t.toJson
    | _ => .error (wrongBody "Text")

def diagramKind : ElementKind where
  tag := "Diagram"
  classifier := "meta::pure::metamodel::diagram::Diagram"
  type := "diagram"
  read j := (Diagram.ofJson? j).map .diagram
  write names e :=
    match e with
    | .diagram d => .ok (d.toJson names)
    | _ => .error (wrongBody "Diagram")

/-- Takes the boxes of dead classes from a diagram, by id, and the lines that touch such a box. -/
def cleanDiagram : Cleaner := fun isDead e =>
  match e with
  | .diagram d =>
    let dead := d.deadViews isDead
    if dead.isEmpty then none else some (.diagram (d.removeViews dead))
  | _ => none

def serviceStoreKind : ElementKind where
  tag := "ServiceStore"
  classifier := "meta::external::store::service::metamodel::ServiceStore"
  type := "serviceStore"
  read j := (ServiceStore.ofJson? j).map .serviceStore
  write names e :=
    match e with
    | .serviceStore s => .ok (s.toJson names)
    | _ => .error (wrongBody "ServiceStore")

def serviceMappingKind : MappingKind where
  type := ClassMappingExtension.servicesType
  read := ClassMappingExtension.servicesOfJson?
  write names e :=
    match e with
    | .services pointers => .ok (ClassMappingExtension.servicesToJson names pointers)
    | _ => .error (wrongBody "ServiceStoreSetImplementation")

def schemaKind : ElementKind where
  tag := "SerializerSchema"
  classifier := "meta::external::serializer::Schema"
  type := "serializerSchema"
  read j := (SerializerSchema.ofJson? j).map .schema
  write names e :=
    match e with
    | .schema s => .ok (s.toJson names)
    | _ => .error (wrongBody "Schema")

def cleanSchema : Cleaner := fun isDead e =>
  match e with
  | .schema s => if s.hasDead isDead then some (.schema (s.removeDead isDead)) else none
  | _ => none

def plugin (p : Preset) : Plugin :=
  match p with
  | .text => { name := p.name, kinds := [textKind] }
  | .diagram => { name := p.name, kinds := [diagramKind], cleaners := [cleanDiagram] }
  | .serviceStore =>
    { name := p.name, kinds := [serviceStoreKind], mappings := [serviceMappingKind] }
  | .serializer => { name := p.name, kinds := [schemaKind], cleaners := [cleanSchema] }

/-- The registry with presets installed in order; none may come twice. -/
def registry (presets : List Preset) : Except GraphError Registry :=
  Registry.empty.installAll (presets.map plugin)

end Preset
end ModelGraph
