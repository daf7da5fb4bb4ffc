import ModelGraph.Mapping.EnumerationMapping
import ModelGraph.Mapping.SetImplementation

/-!
Mappings.

A mapping keeps its set implementations in slots that are never given up, so a slot number names one
set implementation for good. Some slots are class mappings at the top, the others are reached from
those: embedded in a property mapping, or as the main or an aggregate part of an aggregation.
-/

namespace ModelGraph

structure Mapping where
  includes : List (Reference .mapping) := []
  enumerationMappings : List EnumerationMapping := []
  slots : List SetImplementation := []
  /-- The slots of the class mappings at the top. -/
  top : List Nat := []
  deriving Repr

namespace Mapping

/-- Takes a new slot; its number is the former number of slots. -/
def addSlot (s : SetImplementation) (m : Mapping) : Mapping := { m with slots := m.slots ++ [s] }

def addTop (s : SetImplementation) (m : Mapping) : Mapping :=
  { m.addSlot s with top := m.top ++ [m.slots.length] }

def removeTop (index : Nat) (m : Mapping) : Mapping := { m with top := m.top.filter (· ≠ index) }

def mapSlot (f : SetImplementation → SetImplementation) (index : Nat) (m : Mapping) : Mapping :=
  { m with slots := m.slots.modify index f }

def topMappings (m : Mapping) : List (Nat × SetImplementation) :=
  m.top.filterMap fun i => m.slots[i]?.map fun s => (i, s)

/-- The slots embedded below a slot, depth first, after those already found. -/
def collectEmbedded (m : Mapping) : (fuel : Nat) → (index : Nat) → (found : List Nat) → List Nat
  | 0, _, found => found
  | fuel + 1, index, found =>
    match m.slots[index]? with
    | none => found
    | some s =>
      (s.properties.filterMap PropertyMapping.embedded?).foldl
        (fun found i => if found.contains i then found else collectEmbedded m fuel i (found ++ [i]))
        found

def ownClassMappings (m : Mapping) : List Nat :=
  m.top.foldl (fun found i => m.collectEmbedded (m.slots.length + 1) i found) m.top

/-- The aggregations at the top: their main slots and their aggregates. -/
def aggregations (m : Mapping) : List (Nat × List Aggregate) :=
  m.topMappings.filterMap fun t =>
    match t.2.kind with
    | .aggregationAware main aggregates _ => some (main, aggregates)
    | _ => none

/-- The main slots of the aggregations at the top, then all their aggregate slots. -/
def aggregationSlots (m : Mapping) : List Nat :=
  m.aggregations.map (·.1) ++ m.aggregations.flatMap fun a => a.2.map Aggregate.slot

def links (m : Mapping) : List Link :=
  m.includes.map Reference.link ++ m.slots.flatMap SetImplementation.links ++
    m.enumerationMappings.flatMap EnumerationMapping.links

def rebind (f : Rebinding) (m : Mapping) : Mapping where
  includes := m.includes.map (f _)
  enumerationMappings := m.enumerationMappings.map (·.rebind f)
  slots := m.slots.map (·.rebind f)
  top := m.top

/-- The mapping without includes and enumeration mappings of dead elements, and without class
mappings at the top that map a dead class or name no slot. -/
def prune (isDead : Handle → Bool) (m : Mapping) : Mapping :=
  { m with
    includes := m.includes.filter fun r => !r.target.any isDead
    top := m.top.filter fun i => m.slots[i]?.any fun s => !s.target.target.any isDead
    enumerationMappings := m.enumerationMappings.filter fun e => !e.enumeration.target.any isDead }

def entries (m : Mapping) : Nat := m.includes.length + m.top.length + m.enumerationMappings.length

def unwire (m : Mapping) : Mapping := { m with slots := m.slots.map SetImplementation.unwire }

/-- The input of a set implementation, its nested slots included. Where slots run in circles the
nesting ends with `fuel`. -/
def slotInput (m : Mapping) : (fuel : Nat) → (index : Nat) → HashInput
  | 0, _ => .tag .setImplementation ++ .text "<missing>"
  | fuel + 1, index =>
    let nested (i : Nat) : Digest := (slotInput m fuel i).digest
    let propertyInput (p : PropertyMapping) : HashInput :=
      .tag .propertyMapping ++ .code p.digest ++
        match p.kind with
        | .embedded i => .code (nested i)
        | _ => []
    let propertyCodes (ps : List PropertyMapping) : HashInput :=
      .codes (ps.map fun p => (propertyInput p).digest)
    match m.slots[index]? with
    | none => .tag .setImplementation ++ .text "<missing>"
    | some s =>
      .tag .setImplementation ++ .optText s.id.written ++ .text s.target.path.text ++
        .flag s.root ++
        match s.kind with
        | .pureInstance source filter properties =>
          .text "pureInstance" ++ .optText (source.map (·.path.text)) ++ .optional .json filter ++
            propertyCodes properties
        | .relational distinct table key properties =>
          .text "relational" ++ .flag distinct ++ .optCode (table.map TablePointer.digest) ++
            .codes (key.map RelationalOperation.digest) ++ propertyCodes properties
        | .embedded properties => .text "embedded" ++ propertyCodes properties
        | .aggregationAware main aggregates properties =>
          let aggregateInput (a : Aggregate) : HashInput :=
            .word a.index ++ .code a.specification.digest ++ .code (nested a.slot)
          .text "aggregationAware" ++ .code (nested main) ++ (aggregates.flatMap aggregateInput ++
            propertyCodes properties)
        | .operation operation parameters =>
          .text "operation" ++ .text operation.text ++ .texts (parameters.map OperationParameter.id)
        | .extension e => .text e.type ++ .code e.digest

def slotDigest (m : Mapping) (index : Nat) : Digest :=
  (m.slotInput (m.slots.length + 1) index).digest

def hashInput (path : Path) (m : Mapping) : HashInput :=
  .tag .mapping ++ .text path.text ++ .codes (m.includes.map Reference.digest) ++
    .codes (m.top.map m.slotDigest) ++ .codes (m.enumerationMappings.map EnumerationMapping.digest)

end Mapping
end ModelGraph
