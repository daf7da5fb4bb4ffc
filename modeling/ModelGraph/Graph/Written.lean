import ModelGraph.Entity
import ModelGraph.Graph.Basic

/-!
Writing a graph as a model: one entity for each element but packages and primitive types. References
are written by the present paths of their targets.
-/

namespace ModelGraph

inductive WriteError where
  | unknownElementKind (path : Path) (kind : String)
  | unknownMappingExtension (path : Path) (kind : String)
  | invalidColumnType (path : Path) (dataType : String)
  | invalidMapping (path : Path) (fault : MappingFault)
  | notAnObject (path : Path)
  | unwritable (path : Path) (reason : String)
  deriving DecidableEq, Repr

namespace WriteError

def name : WriteError → String
  | .unknownElementKind _ _ => "UnknownElementKind"
  | .unknownMappingExtension _ _ => "UnknownMappingExtension"
  | .invalidColumnType _ _ => "InvalidColumnType"
  | .invalidMapping _ _ => "InvalidMapping"
  | .notAnObject _ => "NotAnObject"
  | .unwritable _ _ => "Json"

def message : WriteError → String
  | .unknownElementKind path kind =>
    "no plugin is registered for element kind `" ++ kind ++ "` of `" ++ path.text ++ "`"
  | .unknownMappingExtension path kind =>
    "no mapping extension is registered for class mapping type `" ++ kind ++ "` in `" ++
      path.text ++ "`"
  | .invalidColumnType path dataType =>
    "invalid column type `" ++ dataType ++ "` in `" ++ path.text ++ "`"
  | .invalidMapping path fault => "invalid mapping `" ++ path.text ++ "`: " ++ fault.message
  | .notAnObject path => "content of `" ++ path.text ++ "` is not a JSON object"
  | .unwritable path reason => "can't serialize `" ++ path.text ++ "`: " ++ reason

end WriteError

namespace Graph

/-- An entity whose content is a document under its header. Members of the document that have the
name of a header member give way. -/
def entity (e : Element) (classifier type : String) (document : Json) : Except WriteError Entity :=
  match document with
  | .obj members =>
    let package := e.path.package?.map fun p => Json.str p.text
    .ok {
      path := e.path
      classifier
      content := Json.object (members ++ [("_type", .str type), ("name", .str e.name)] ++
        Record.optField "package" package) }
  | _ => .error (.notAnObject e.path)

def coreEntity (e : Element) (c : Classifier) (document : Json) : Except WriteError Entity :=
  entity e c.path c.type document

/-- The document of a class mapping at the top of a mapping. The header of one of an extension type
wins over the members that the extension writes. -/
def classMappingJson (g : Graph) (path : Path) (m : Mapping) (index : Nat) :
    Except WriteError Json := do
  let s ← (m.slot index).mapError (.invalidMapping path)
  match s.kind with
  | .extension x =>
    match g.registry.mapping? x.type with
    | none => throw (.unknownMappingExtension path x.type)
    | some k =>
      match ← (k.write g.referencePath x).mapError (.unwritable path) with
      | .obj members =>
        return Json.object (members ++ Record.field "_type" (.str x.type) ++
          ClassMappingHeader.record g.referencePath s)
      | _ => throw (.notAnObject path)
  | _ =>
    (m.classMappingJson g.referencePath (m.slots.length + 1) index).mapError (.invalidMapping path)

def mappingJson (g : Graph) (path : Path) (m : Mapping) : Except WriteError Json := do
  let classMappings ← m.top.mapM (g.classMappingJson path m)
  return Record.toJson
    (.listField "includedMappings" (m.includes.map (MappingDocument.includeJson g.referencePath)) ++
      .listField "classMappings" classMappings ++
      .listField "enumerationMappings" (m.enumerationMappings.map (·.toJson g.referencePath)))

def extensionEntity (g : Graph) (e : Element) (x : Extension) : Except WriteError Entity := do
  match g.registry.kind? x.kind with
  | none => throw (.unknownElementKind e.path x.kind)
  | some k =>
    let document ← (k.write g.referencePath x).mapError (.unwritable e.path)
    entity e k.classifier k.type document

/-- The entity of an element; packages and primitive types have none. -/
def entity? (g : Graph) (e : Element) : Except WriteError (Option Entity) :=
  let names := g.referencePath
  match e.body with
  | .package _ => .ok none
  | .primitiveType => .ok none
  | .profile p => (coreEntity e .profile p.toJson).map some
  | .enumeration b => (coreEntity e .enumeration (b.toJson names)).map some
  | .class b => (coreEntity e .class (b.toJson names)).map some
  | .association b => (coreEntity e .association (b.toJson names)).map some
  | .function b => (coreEntity e .function (b.toJson names)).map some
  | .database b =>
    match b.toJson names with
    | .ok document => (coreEntity e .database document).map some
    | .error bad => .error (.invalidColumnType e.path bad.dataType)
  | .mapping b =>
    match g.mappingJson e.path b with
    | .ok document => (coreEntity e .mapping document).map some
    | .error fault => .error fault
  | .connection b => (coreEntity e .connection (b.toElementJson names)).map some
  | .runtime b => (coreEntity e .runtime (b.toElementJson names)).map some
  | .service b => (coreEntity e .service (b.toJson names)).map some
  | .extension x => (g.extensionEntity e x).map some

def toModel (g : Graph) : Except WriteError Model := do
  let entities ← g.live.mapM fun l => g.entity? l.2
  return Model.sorted (entities.filterMap id)

end Graph
end ModelGraph
