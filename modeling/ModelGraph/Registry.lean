import ModelGraph.Classifier
import ModelGraph.Error
import ModelGraph.Mapping.Document

/-!
Registries of extensions: element kinds and class mappings beyond the core ones, and cleaners that
take part in a sweep.

Each extension has keys, and no key is taken twice or belongs to the core. A plugin is a bundle of
extensions that is installed as a whole or not at all.
-/

namespace ModelGraph

/-- An element kind: its keys, and how its bodies are read and written. -/
structure ElementKind where
  tag : String
  classifier : String
  type : String
  /-- Reads the content without its header. -/
  read : Json → Option Extension
  /-- Writes the content without its header, or says why the body is not of this kind. -/
  write : Naming → Extension → Except String Json

/-- A class mapping type, and how its content is read and written. -/
structure MappingKind where
  type : String
  /-- Reads the content without its header. -/
  read : Json → Option ClassMappingExtension
  /-- Writes the content without its header, or says why the content is not of this type. -/
  write : Naming → ClassMappingExtension → Except String Json

/-- What a sweep does to an extension body once some elements are dead: nothing, or a new body. -/
abbrev Cleaner := (isDead : Handle → Bool) → Extension → Option Extension

structure Plugin where
  name : String
  kinds : List ElementKind := []
  mappings : List MappingKind := []
  cleaners : List Cleaner := []

structure Registry where
  plugins : List String := []
  kinds : List ElementKind := []
  mappings : List MappingKind := []
  cleaners : List Cleaner := []

namespace Registry

def empty : Registry := {}

def kind? (r : Registry) (tag : String) : Option ElementKind := r.kinds.find? (·.tag == tag)

def kindByClassifier? (r : Registry) (classifier : String) : Option ElementKind :=
  r.kinds.find? (·.classifier == classifier)

def kindByType? (r : Registry) (type : String) : Option ElementKind :=
  r.kinds.find? (·.type == type)

def mapping? (r : Registry) (type : String) : Option MappingKind :=
  r.mappings.find? (·.type == type)

/-- The first key of an element kind that is taken, by tag, classifier and type in this order. -/
def takenKindKey? (r : Registry) (k : ElementKind) : Option String :=
  if (r.kind? k.tag).isSome then some k.tag
  else if Classifier.paths.contains k.classifier || (r.kindByClassifier? k.classifier).isSome then
    some k.classifier
  else if Classifier.types.contains k.type || (r.kindByType? k.type).isSome then some k.type
  else none

def takenMappingKey? (r : Registry) (m : MappingKind) : Option String :=
  if ClassMappingDocument.types.contains m.type || (r.mapping? m.type).isSome then some m.type
  else none

def addKind (r : Registry) (k : ElementKind) : Except GraphError Registry :=
  match r.takenKindKey? k with
  | some key => .error (.duplicateExtension key)
  | none => .ok { r with kinds := r.kinds ++ [k] }

def addMapping (r : Registry) (m : MappingKind) : Except GraphError Registry :=
  match r.takenMappingKey? m with
  | some key => .error (.duplicateExtension key)
  | none => .ok { r with mappings := r.mappings ++ [m] }

def addCleaner (r : Registry) (c : Cleaner) : Registry := { r with cleaners := r.cleaners ++ [c] }

/-- Puts the kinds of a plugin on a stage of their own; each key must be free in the registry and on
the stage. -/
def stageKinds (r stage : Registry) : List ElementKind → Except GraphError Registry
  | [] => .ok stage
  | k :: rest => do
    let _ ← r.addKind k
    let stage ← stage.addKind k
    stageKinds r stage rest

def stageMappings (r stage : Registry) : List MappingKind → Except GraphError Registry
  | [] => .ok stage
  | m :: rest => do
    let _ ← r.addMapping m
    let stage ← stage.addMapping m
    stageMappings r stage rest

def install (r : Registry) (p : Plugin) : Except GraphError Registry := do
  if r.plugins.contains p.name then throw (.duplicateExtension p.name)
  let stage ← r.stageKinds empty p.kinds
  let stage ← r.stageMappings stage p.mappings
  return {
    plugins := r.plugins ++ [p.name]
    kinds := r.kinds ++ stage.kinds
    mappings := r.mappings ++ stage.mappings
    cleaners := r.cleaners ++ p.cleaners }

def installAll (r : Registry) (ps : List Plugin) : Except GraphError Registry := ps.foldlM install r

end Registry
end ModelGraph
