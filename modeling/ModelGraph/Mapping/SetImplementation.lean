import ModelGraph.Extension.Body
import ModelGraph.Mapping.Id
import ModelGraph.Store.RelationalOperation

/-!
Set implementations, which say how the instances of a class are produced, and the property mappings
that they hold. A set implementation within another one is named by its slot in the mapping.
-/

namespace ModelGraph

inductive PropertyMappingKind where
  | pure (transform : Json) (explode : Option Bool)
  | relational (operation : RelationalOperation)
  | embedded (index : Nat)
  deriving Repr

/-- How the value of a property is produced. The source and the target are ids as written; wiring
binds the set implementation that produces the values. -/
structure PropertyMapping where
  owner : Reference .classOrAssociation
  property : String
  source : Option String := none
  target : Option String := none
  enumerationMapping : Option String := none
  kind : PropertyMappingKind
  producer : Option SetHandle := none
  deriving Repr

namespace PropertyMapping

def embedded? (p : PropertyMapping) : Option Nat :=
  match p.kind with
  | .embedded index => some index
  | _ => none

def operation? (p : PropertyMapping) : Option RelationalOperation :=
  match p.kind with
  | .relational operation => some operation
  | _ => none

def links (p : PropertyMapping) : List Link :=
  match p.kind with
  | .relational operation => p.owner.link :: operation.links
  | _ => [p.owner.link]

def rebind (f : Rebinding) (p : PropertyMapping) : PropertyMapping :=
  { p with
    owner := f _ p.owner
    kind :=
      match p.kind with
      | .relational operation => .relational (operation.rebind f)
      | kind => kind }

def ownerInput (p : PropertyMapping) : HashInput :=
  .tag .propertyMapping ++ .text p.owner.path.text ++ .text p.property

def kindInput : PropertyMappingKind → HashInput
  | .pure transform explode =>
    .text "pure" ++ .json transform ++
      .optText (explode.map fun b => if b then "true" else "false")
  | .relational operation => .text "relational" ++ .code operation.digest
  | .embedded _ => .text "embedded"

/-- The input without the set implementation that is embedded, which its mapping adds. -/
def hashInput (p : PropertyMapping) : HashInput :=
  .tag .propertyMapping ++ .code p.ownerInput.digest ++ .optText p.source ++ .optText p.target ++
    .optText p.enumerationMapping ++ kindInput p.kind

def digest (p : PropertyMapping) : Digest := p.hashInput.digest

end PropertyMapping

structure AggregateValue where
  map : Json
  aggregate : Json
  deriving Repr

/-- Which queries an aggregate set implementation answers. -/
structure AggregationSpecification where
  canAggregate : Bool := false
  groupBy : List Json := []
  values : List AggregateValue := []
  deriving Repr

namespace AggregationSpecification

def hashInput (s : AggregationSpecification) : HashInput :=
  .tag .aggregationSpecification ++ .flag s.canAggregate ++ s.groupBy.flatMap HashInput.json ++
    s.values.flatMap fun v => HashInput.json v.map ++ HashInput.json v.aggregate

def digest (s : AggregationSpecification) : Digest := s.hashInput.digest

end AggregationSpecification

/-- A set implementation that answers some queries in place of the main one. -/
structure Aggregate where
  index : Nat
  specification : AggregationSpecification := {}
  slot : Nat
  deriving Repr

/-- How an operation combines set implementations. -/
inductive Operation where
  | storeUnion
  | routerUnion
  | inheritance
  | merge
  deriving DecidableEq, Repr

namespace Operation

def text : Operation → String
  | .storeUnion => "STORE_UNION"
  | .routerUnion => "ROUTER_UNION"
  | .inheritance => "INHERITANCE"
  | .merge => "MERGE"

def ofText? : String → Option Operation
  | "STORE_UNION" => some .storeUnion
  | "ROUTER_UNION" => some .routerUnion
  | "INHERITANCE" => some .inheritance
  | "MERGE" => some .merge
  | _ => none

end Operation

/-- A set implementation that an operation names by id; wiring binds it. -/
structure OperationParameter where
  id : String
  producer : Option SetHandle := none
  deriving DecidableEq, Repr

inductive SetImplementationKind where
  | pureInstance (source : Option (Reference .class)) (filter : Option Json)
      (properties : List PropertyMapping)
  | relational (distinct : Bool) (mainTable : Option TablePointer)
      (primaryKey : List RelationalOperation) (properties : List PropertyMapping)
  | embedded (properties : List PropertyMapping)
  | aggregationAware (main : Nat) (aggregates : List Aggregate) (properties : List PropertyMapping)
  | operation (operation : Operation) (parameters : List OperationParameter)
  | extension (e : ClassMappingExtension)
  deriving Repr

/-- A class mapping, at the top of its mapping or within another one. -/
structure SetImplementation where
  id : MappingId
  target : Reference .class
  root : Bool := false
  kind : SetImplementationKind
  deriving Repr

namespace SetImplementation

/-- What the kind is called; an operation is called by its own name, an extension by its type. -/
def kindName (s : SetImplementation) : String :=
  match s.kind with
  | .pureInstance _ _ _ => "pureInstance"
  | .relational _ _ _ _ => "relational"
  | .embedded _ => "embedded"
  | .aggregationAware _ _ _ => "aggregationAware"
  | .operation operation _ => operation.text
  | .extension e => e.type

def properties (s : SetImplementation) : List PropertyMapping :=
  match s.kind with
  | .pureInstance _ _ properties => properties
  | .relational _ _ _ properties => properties
  | .embedded properties => properties
  | .aggregationAware _ _ properties => properties
  | .operation _ _ => []
  | .extension _ => []

def mapProperties (f : PropertyMapping → PropertyMapping) (s : SetImplementation) :
    SetImplementation :=
  { s with
    kind :=
      match s.kind with
      | .pureInstance source filter properties => .pureInstance source filter (properties.map f)
      | .relational distinct table key properties =>
        .relational distinct table key (properties.map f)
      | .embedded properties => .embedded (properties.map f)
      | .aggregationAware main aggregates properties =>
        .aggregationAware main aggregates (properties.map f)
      | kind => kind }

def parameters (s : SetImplementation) : List OperationParameter :=
  match s.kind with
  | .operation _ parameters => parameters
  | _ => []

def mapParameters (f : OperationParameter → OperationParameter) (s : SetImplementation) :
    SetImplementation :=
  { s with
    kind :=
      match s.kind with
      | .operation operation parameters => .operation operation (parameters.map f)
      | kind => kind }

def mainTable? (s : SetImplementation) : Option TablePointer :=
  match s.kind with
  | .relational _ table _ _ => table
  | _ => none

def primaryKey (s : SetImplementation) : List RelationalOperation :=
  match s.kind with
  | .relational _ _ key _ => key
  | _ => []

/-- The property mapping of a property; with a target id, the one with that target. -/
def findProperty (s : SetImplementation) (property : String) (target : Option String) :
    Option PropertyMapping :=
  s.properties.find? fun p => p.property == property && target.all fun t => p.target == some t

def kindLinks : SetImplementationKind → List Link
  | .pureInstance source _ _ => (source.map Reference.link).toList
  | .relational _ table key _ =>
    (table.map (·.database.link)).toList ++ key.flatMap RelationalOperation.links
  | .embedded _ => []
  | .aggregationAware _ _ _ => []
  | .operation _ _ => []
  | .extension e => e.links

def links (s : SetImplementation) : List Link :=
  s.target.link :: (kindLinks s.kind ++ s.properties.flatMap PropertyMapping.links)

def rebindKind (f : Rebinding) : SetImplementationKind → SetImplementationKind
  | .pureInstance source filter properties =>
    .pureInstance (source.map (f _)) filter (properties.map (·.rebind f))
  | .relational distinct table key properties =>
    .relational distinct (table.map (·.rebind f)) (key.map (·.rebind f))
      (properties.map (·.rebind f))
  | .embedded properties => .embedded (properties.map (·.rebind f))
  | .aggregationAware main aggregates properties =>
    .aggregationAware main aggregates (properties.map (·.rebind f))
  | .operation operation parameters => .operation operation parameters
  | .extension e => .extension (e.rebind f)

def rebind (f : Rebinding) (s : SetImplementation) : SetImplementation :=
  { s with target := f _ s.target, kind := rebindKind f s.kind }

def unwire (s : SetImplementation) : SetImplementation :=
  (s.mapProperties fun p => { p with producer := none }).mapParameters
    fun p => { p with producer := none }

end SetImplementation
end ModelGraph
