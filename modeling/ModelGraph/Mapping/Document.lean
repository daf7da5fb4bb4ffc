import ModelGraph.Mapping.Basic

/-!
The documents of class mappings.

In a document a set implementation holds those within it; in a mapping each takes a slot of its
own. `ClassMappingDocument.intern` spreads a document over slots, and the writing functions gather
it again.
-/

namespace ModelGraph

/-- The property mapping of a document, with the set implementation embedded in it. -/
inductive PropertyMappingDocument where
  | plain (mapping : PropertyMapping)
  | embedded (owner : Reference .classOrAssociation) (property : String) (source : Option String)
      (id : String) (target : Reference .class) (root : Bool)
      (properties : List PropertyMappingDocument)
  deriving Repr

structure ClassMappingHeader where
  id : Option String := none
  target : Reference .class
  root : Bool := false
  deriving DecidableEq, Repr

/-- The class mapping of a document, of one of the core types. -/
inductive ClassMappingDocument where
  | pureInstance (header : ClassMappingHeader) (source : Option (Reference .class))
      (filter : Option Json) (properties : List PropertyMappingDocument)
  | relational (header : ClassMappingHeader) (distinct : Bool) (mainTable : Option TablePointer)
      (primaryKey : List RelationalOperation) (properties : List PropertyMappingDocument)
  | aggregationAware (header : ClassMappingHeader) (main : ClassMappingDocument)
      (aggregates : List (Nat × AggregationSpecification × ClassMappingDocument))
      (properties : List PropertyMappingDocument)
  | operation (header : ClassMappingHeader) (operation : String) (parameters : List String)
  deriving Repr

namespace PropertyMappingDocument

def pointer? (j : Json) : Option (Reference .classOrAssociation × String) := do
  let r ← Record.ofJson? ["class", "property"] j
  return (← r.required "class" Reference.ofJson?, ← r.text "property")

def pointerJson (names : Naming) (owner : Reference .classOrAssociation) (property : String) :
    Json :=
  Record.toJson (.field "class" (owner.toJson names) ++ .field "property" (.str property))

def tags : List String :=
  ["purePropertyMapping", "relationalPropertyMapping", "embeddedPropertyMapping"]

/-- Reads a property mapping in which containers nest to less than `fuel`. -/
def read : (fuel : Nat) → Json → Option PropertyMappingDocument
  | 0, _ => none
  | fuel + 1, j => do
    let (tag, j) ← Json.tagged? tags true j
    match tag with
    | "purePropertyMapping" =>
      let r ← Record.ofJson?
        ["property", "source", "target", "enumMappingId", "transform", "explodeProperty"] j
      let (owner, property) ← r.required "property" pointer?
      return .plain {
        owner, property
        source := ← r.optText "source"
        target := ← r.optText "target"
        enumerationMapping := ← r.optText "enumMappingId"
        kind := .pure (← r.requiredValue "transform") (← r.optional "explodeProperty" Json.bool?) }
    | "relationalPropertyMapping" =>
      let r ← Record.ofJson?
        ["property", "source", "target", "enumMappingId", "relationalOperation"] j
      let (owner, property) ← r.required "property" pointer?
      return .plain {
        owner, property
        source := ← r.optText "source"
        target := ← r.optText "target"
        enumerationMapping := ← r.optText "enumMappingId"
        kind := .relational
          (← r.required "relationalOperation" (RelationalOperation.ofJson? true)) }
    | "embeddedPropertyMapping" =>
      let r ← Record.ofJson? ["property", "source", "id", "class", "root", "propertyMappings"] j
      let (owner, property) ← r.required "property" pointer?
      return .embedded owner property (← r.optText "source") (← r.text "id")
        (← r.required "class" Reference.ofJson?) (← r.flag "root")
        (← r.list "propertyMappings" (read fuel))
    | _ => none

def ofJson? (j : Json) : Option PropertyMappingDocument := read (j.depth + 1) j

mutual

/-- Takes slots for the set implementations embedded in a property mapping, the inner ones first. -/
def intern : PropertyMappingDocument → Mapping → PropertyMapping × Mapping
  | .plain mapping, m => (mapping, m)
  | .embedded owner property source id target root properties, m =>
    let (properties, m) := internAll properties m
    let slot : SetImplementation :=
      { id := .explicit id, target, root, kind := .embedded properties }
    ({ owner, property, source, kind := .embedded m.slots.length }, m.addSlot slot)

def internAll : List PropertyMappingDocument → Mapping → List PropertyMapping × Mapping
  | [], m => ([], m)
  | d :: rest, m =>
    let (p, m) := d.intern m
    let (ps, m) := internAll rest m
    (p :: ps, m)

end

end PropertyMappingDocument

namespace ClassMappingHeader

def ofJson? : Json → Option ClassMappingHeader
  | .obj members => do
    return {
      id := ← Record.optText members "id"
      target := ← Record.required members "class" Reference.ofJson?
      root := ← Record.flag members "root" }
  | j => do
    let r ← Record.ofJson? ["id", "class", "root"] j
    return {
      id := ← r.optText "id"
      target := ← r.required "class" Reference.ofJson?
      root := ← r.flag "root" }

def ofRecord? (r : Record) : Option ClassMappingHeader := do
  return {
    id := ← r.optText "id"
    target := ← r.required "class" Reference.ofJson?
    root := ← r.flag "root" }

def record (names : Naming) (s : SetImplementation) : Record :=
  .optField "id" (s.id.written.map .str) ++ .field "class" (s.target.toJson names) ++
    .field "root" (.bool s.root)

def implementation (h : ClassMappingHeader) (kind : SetImplementationKind) : SetImplementation :=
  { id := .ofOption h.id h.target.path, target := h.target, root := h.root, kind }

end ClassMappingHeader

namespace AggregationSpecification

def valueOfJson? (j : Json) : Option AggregateValue := do
  let r ← Record.ofJson? ["mapFn", "aggregateFn"] j
  return ⟨← r.requiredValue "mapFn", ← r.requiredValue "aggregateFn"⟩

def ofJson? (j : Json) : Option AggregationSpecification := do
  let r ← Record.ofJson? ["canAggregate", "groupByFunctions", "aggregateValues"] j
  return {
    canAggregate := ← r.flag "canAggregate"
    groupBy := ← r.list "groupByFunctions" some
    values := ← r.list "aggregateValues" valueOfJson? }

def toJson (s : AggregationSpecification) : Json :=
  Record.toJson (.field "canAggregate" (.bool s.canAggregate) ++
    .listField "groupByFunctions" s.groupBy ++
    .listField "aggregateValues" (s.values.map fun v =>
      Record.toJson (.field "mapFn" v.map ++ .field "aggregateFn" v.aggregate)))

end AggregationSpecification

namespace ClassMappingDocument

def types : List String := ["pureInstance", "relational", "aggregationAware", "operation"]

def read : (fuel : Nat) → (nested : Bool) → Json → Option ClassMappingDocument
  | 0, _, _ => none
  | fuel + 1, nested, j => do
    let (type, j) ← Json.tagged? types nested j
    match type with
    | "pureInstance" =>
      let r ← Record.ofJson? ["id", "class", "root", "srcClass", "filter", "propertyMappings"] j
      return .pureInstance (← ClassMappingHeader.ofRecord? r)
        (← r.optional "srcClass" Reference.ofJson?) (← r.optional "filter" some)
        (← r.list "propertyMappings" PropertyMappingDocument.ofJson?)
    | "relational" =>
      let r ← Record.ofJson?
        ["id", "class", "root", "distinct", "mainTable", "primaryKey", "propertyMappings"] j
      return .relational (← ClassMappingHeader.ofRecord? r) (← r.flag "distinct")
        (← r.optional "mainTable" TablePointer.ofJson?)
        (← r.list "primaryKey" (RelationalOperation.ofJson? true))
        (← r.list "propertyMappings" PropertyMappingDocument.ofJson?)
    | "aggregationAware" =>
      let r ← Record.ofJson?
        ["id", "class", "root", "mainSetImplementation", "aggregateSetImplementations",
          "propertyMappings"] j
      let aggregate (j : Json) :
          Option (Nat × AggregationSpecification × ClassMappingDocument) := do
        let r ← Record.ofJson? ["index", "aggregateSpecification", "setImplementation"] j
        return (← r.required "index" Json.nat32?,
          ← r.required "aggregateSpecification" AggregationSpecification.ofJson?,
          ← r.required "setImplementation" (read fuel true))
      return .aggregationAware (← ClassMappingHeader.ofRecord? r)
        (← r.required "mainSetImplementation" (read fuel true))
        (← r.list "aggregateSetImplementations" aggregate)
        (← r.list "propertyMappings" PropertyMappingDocument.ofJson?)
    | "operation" =>
      let r ← Record.ofJson? ["id", "class", "root", "operation", "parameters"] j
      return .operation (← ClassMappingHeader.ofRecord? r) (← r.text "operation")
        (← r.texts "parameters")
    | _ => none

def ofJson? (j : Json) : Option ClassMappingDocument := read (j.depth + 1) false j

mutual

/-- The set implementation of a class mapping, after slots for all those within it: of a property
mapping the inner ones first, of an aggregation the main one, the aggregates, and then those of its
property mappings. A class mapping with an operation of another name is refused with that name. -/
def intern : ClassMappingDocument → Mapping → Except String (SetImplementation × Mapping)
  | .pureInstance header source filter properties, m =>
    let (properties, m) := PropertyMappingDocument.internAll properties m
    .ok (header.implementation (.pureInstance source filter properties), m)
  | .relational header distinct mainTable primaryKey properties, m =>
    let (properties, m) := PropertyMappingDocument.internAll properties m
    .ok (header.implementation (.relational distinct mainTable primaryKey properties), m)
  | .aggregationAware header main aggregates properties, m =>
    match main.intern m with
    | .error name => .error name
    | .ok (main, m) =>
      let slot := m.slots.length
      match internAggregates aggregates (m.addSlot main) with
      | .error name => .error name
      | .ok (aggregates, m) =>
        let (properties, m) := PropertyMappingDocument.internAll properties m
        .ok (header.implementation (.aggregationAware slot aggregates properties), m)
  | .operation header name parameters, m =>
    match Operation.ofText? name with
    | none => .error name
    | some o => .ok (header.implementation (.operation o (parameters.map fun id => { id })), m)

def internAggregates : List (Nat × AggregationSpecification × ClassMappingDocument) → Mapping →
    Except String (List Aggregate × Mapping)
  | [], m => .ok ([], m)
  | (index, specification, d) :: rest, m =>
    match d.intern m with
    | .error name => .error name
    | .ok (s, m) =>
      let slot := m.slots.length
      match internAggregates rest (m.addSlot s) with
      | .error name => .error name
      | .ok (aggregates, m) => .ok ({ index, specification, slot } :: aggregates, m)

end

end ClassMappingDocument

/-- Why a mapping has no document. -/
inductive MappingFault where
  | missingSlot (index : Nat)
  | embeddedAsClassMapping (id : String)
  | nestedExtension (type id : String)
  | notEmbedded (property id : String)
  deriving DecidableEq, Repr

namespace MappingFault

def message : MappingFault → String
  | .missingSlot index =>
    "set implementation SetImplementationIndex(" ++ toString index ++ ") is missing from the arena"
  | .embeddedAsClassMapping id =>
    "embedded set implementation `" ++ id ++ "` used as a class mapping"
  | .nestedExtension type id =>
    "`" ++ type ++ "` class mapping `" ++ id ++ "` nested in an aggregation-aware class mapping"
  | .notEmbedded property id =>
    "property `" ++ property ++ "` embeds the non-embedded set implementation `" ++ id ++ "`"

end MappingFault

namespace Mapping

def slot (m : Mapping) (index : Nat) : Except MappingFault SetImplementation :=
  match m.slots[index]? with
  | some s => .ok s
  | none => .error (.missingSlot index)

/-- The document of a property mapping, with the set implementations embedded in it down to `fuel`
levels. -/
def propertyJson (names : Naming) (m : Mapping) :
    (fuel : Nat) → PropertyMapping → Except MappingFault Json
  | 0, _ => .error (.missingSlot 0)
  | fuel + 1, p =>
    let pointer := PropertyMappingDocument.pointerJson names p.owner p.property
    let head : Record := .field "property" pointer ++ .optField "source" (p.source.map .str)
    let targets : Record :=
      .optField "target" (p.target.map .str) ++
        .optField "enumMappingId" (p.enumerationMapping.map .str)
    match p.kind with
    | .pure transform explode =>
      .ok (Record.tagged "purePropertyMapping" (head ++ targets ++ .field "transform" transform ++
        .optField "explodeProperty" (explode.map .bool)))
    | .relational operation =>
      .ok (Record.tagged "relationalPropertyMapping" (head ++ targets ++
        .field "relationalOperation" (operation.toJson names)))
    | .embedded index => do
      let s ← m.slot index
      match s.kind with
      | .embedded properties =>
        let properties ← properties.mapM (propertyJson names m fuel)
        return Record.tagged "embeddedPropertyMapping" (head ++ .field "id" (.str s.id.value) ++
          .field "class" (s.target.toJson names) ++ .field "root" (.bool s.root) ++
          .listField "propertyMappings" properties)
      | _ => throw (.notEmbedded p.property s.id.value)

/-- The document of a class mapping, with the set implementations in it down to `fuel` levels. -/
def classMappingJson (names : Naming) (m : Mapping) :
    (fuel : Nat) → (index : Nat) → Except MappingFault Json
  | 0, index => .error (.missingSlot index)
  | fuel + 1, index => do
    let s ← m.slot index
    let head := ClassMappingHeader.record names s
    let propertyJsons (properties : List PropertyMapping) : Except MappingFault (List Json) :=
      properties.mapM (m.propertyJson names (m.slots.length + 1))
    match s.kind with
    | .pureInstance source filter properties =>
      let properties ← propertyJsons properties
      return Record.tagged "pureInstance" (head ++
        .optField "srcClass" (source.map (·.toJson names)) ++ .optField "filter" filter ++
        .listField "propertyMappings" properties)
    | .relational distinct table key properties =>
      let properties ← propertyJsons properties
      return Record.tagged "relational" (head ++ .field "distinct" (.bool distinct) ++
        .optField "mainTable" (table.map (·.toJson names)) ++
        .listField "primaryKey" (RelationalOperation.toJsons names key) ++
        .listField "propertyMappings" properties)
    | .aggregationAware main aggregates properties =>
      let aggregates ← aggregates.mapM fun a => do
        let d ← classMappingJson names m fuel a.slot
        return Record.toJson (.field "index" (.ofNat a.index) ++
          .field "aggregateSpecification" a.specification.toJson ++ .field "setImplementation" d)
      let main ← classMappingJson names m fuel main
      let properties ← propertyJsons properties
      return Record.tagged "aggregationAware" (head ++ .field "mainSetImplementation" main ++
        .listField "aggregateSetImplementations" aggregates ++
        .listField "propertyMappings" properties)
    | .operation operation parameters =>
      return Record.tagged "operation" (head ++ .field "operation" (.str operation.text) ++
        .listField "parameters" (parameters.map fun p => .str p.id))
    | .embedded _ => throw (.embeddedAsClassMapping s.id.value)
    | .extension e => throw (.nestedExtension e.type s.id.value)

end Mapping

/-- The document of a mapping, its class mappings not yet read. -/
structure MappingDocument where
  includes : List (Reference .mapping) := []
  classMappings : List Json := []
  enumerationMappings : List EnumerationMapping := []
  deriving Repr

namespace MappingDocument

/-- The tag of an include may be any text and is not kept. -/
def includeOfJson? (j : Json) : Option (Reference .mapping) := do
  let r ← Record.ofJson? ["_type", "includedMapping"] j
  let _ ← r.withDefault "_type" "mappingIncludeMapping" Json.text?
  r.required "includedMapping" Reference.ofJson?

def includeJson (names : Naming) (r : Reference .mapping) : Json :=
  Record.tagged "mappingIncludeMapping" (.field "includedMapping" (r.toJson names))

def ofJson? (j : Json) : Option MappingDocument := do
  let r ← Record.ofJson? ["includedMappings", "classMappings", "enumerationMappings"] j
  return {
    includes := ← r.list "includedMappings" includeOfJson?
    classMappings := ← r.list "classMappings" some
    enumerationMappings := ← r.list "enumerationMappings" EnumerationMapping.ofJson? }

end MappingDocument
end ModelGraph
