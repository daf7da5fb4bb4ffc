import ModelGraph.Graph.Lookup

/-!
Mappings of a graph: the class mappings and enumeration mappings that a mapping has by itself and by
its includes, and the wiring of property mappings and operations to the set implementations that
produce their values.
-/

namespace ModelGraph.Graph

def mapping? (g : Graph) (h : Handle) : Option Mapping :=
  match g.body? h with
  | some (.mapping m) => some m
  | _ => none

def includes (g : Graph) (h : Handle) : List Handle :=
  match g.mapping? h with
  | some m => m.includes.filterMap Reference.target
  | none => []

/-- The mappings included below a mapping, depth first, after those already visited. Deleted
mappings are passed over. -/
def collectIncludes (g : Graph) : (fuel : Nat) → Handle → List Handle → List Handle
  | 0, _, visited => visited
  | fuel + 1, h, visited =>
    (g.includes h).foldl
      (fun visited target =>
        if visited.contains target || g.isDeleted target then visited
        else collectIncludes g fuel target (visited ++ [target]))
      visited

/-- The mappings that a mapping includes, at any depth, without itself. -/
def includedMappings (g : Graph) (h : Handle) : List Handle :=
  (g.collectIncludes g.fuel h [h]).drop 1

def sources (g : Graph) (h : Handle) : List Handle := h :: g.includedMappings h

def setImplementation? (g : Graph) (s : SetHandle) : Option SetImplementation :=
  (g.mapping? s.mapping).bind fun m => m.slots[s.index]?

def ownClassMappings (g : Graph) (h : Handle) : List SetHandle :=
  match g.mapping? h with
  | some m => m.ownClassMappings.map fun i => ⟨h, i⟩
  | none => []

def allClassMappings (g : Graph) (h : Handle) : List SetHandle :=
  ((g.sources h).flatMap g.ownClassMappings).foldl
    (fun found s => if found.contains s then found else found ++ [s]) []

def namedClassMappings (g : Graph) (h : Handle) : List SetHandle :=
  match g.mapping? h with
  | some m => (m.ownClassMappings ++ m.aggregationSlots).map fun i => ⟨h, i⟩
  | none => []

/-- The first class mapping with an id, in a mapping and in those it includes. -/
def classMappingById (g : Graph) (h : Handle) (id : String) : Except GraphError SetHandle :=
  match ((g.sources h).flatMap g.namedClassMappings).find? fun s =>
      (g.setImplementation? s).any (·.id.value == id) with
  | some s => .ok s
  | none => .error (.classMappingNotFound id (g.pathOf h))

def mapsClass (g : Graph) (c : Handle) (s : SetHandle) : Bool :=
  (g.setImplementation? s).any (·.target.pointsTo c)

def classMappingsByClass (g : Graph) (h c : Handle) : List SetHandle :=
  (g.allClassMappings h).filter (g.mapsClass c)

def ownClassMappingsByClass (g : Graph) (h c : Handle) : List SetHandle :=
  (g.ownClassMappings h).filter (g.mapsClass c)

/-- The class mapping of a class where none is named: the first root, or else the first. -/
def defaultClassMapping (g : Graph) (h c : Handle) : Option SetHandle :=
  let candidates := g.classMappingsByClass h c
  (candidates.find? fun s => (g.setImplementation? s).any (·.root)).or candidates.head?

def enumerationMapping? (g : Graph) (e : EnumerationMappingHandle) : Option EnumerationMapping :=
  (g.mapping? e.mapping).bind fun m => m.enumerationMappings[e.index]?

def ownEnumerationMappings (g : Graph) (h : Handle) : List EnumerationMappingHandle :=
  match g.mapping? h with
  | some m => (List.range m.enumerationMappings.length).map fun i => ⟨h, i⟩
  | none => []

def allEnumerationMappings (g : Graph) (h : Handle) : List EnumerationMappingHandle :=
  (g.sources h).flatMap g.ownEnumerationMappings

def enumerationMappingsByEnumeration (g : Graph) (h e : Handle) : List EnumerationMappingHandle :=
  (g.ownEnumerationMappings h).filter fun m =>
    (g.enumerationMapping? m).any (·.enumeration.pointsTo e)

/-- The first enumeration mapping with an id, in a mapping and in those it includes. -/
def enumerationMappingById (g : Graph) (h : Handle) (id : String) :
    Except GraphError EnumerationMappingHandle :=
  match (g.allEnumerationMappings h).find? fun m =>
      (g.enumerationMapping? m).any (·.id.value == id) with
  | some m => .ok m
  | none => .error (.enumerationMappingNotFound id (g.pathOf h))

/-- The class that a property yields; other types need no set implementation. -/
def classOf? (g : Graph) (p : Property) : Option Handle :=
  p.type.target.filter fun t => (g.body? t).any (Family.admits .class)

/-- The set implementation that produces the values of a property mapping: the embedded one, the one
named as its target, or the default one of the class that the property yields. -/
def producer (g : Graph) (h : Handle) (p : PropertyMapping) :
    Except GraphError (Option SetHandle) :=
  match p.embedded?, p.owner.target with
  | some index, _ => .ok (some ⟨h, index⟩)
  | none, none => .ok none
  | none, some owner => do
    let property ← g.findProperty owner p.property
    match g.classOf? property, p.target.filter fun id => !id.isEmpty with
    | none, _ => return none
    | some _, some id => return some (← g.classMappingById h id)
    | some c, none => return g.defaultClassMapping h c

/-- Binds what has a producer; the others keep their binding. -/
def wireProperty (g : Graph) (h : Handle) (p : PropertyMapping) : PropertyMapping :=
  match g.producer h p with
  | .ok (some s) => { p with producer := some s }
  | _ => p

def wireParameter (g : Graph) (h : Handle) (p : OperationParameter) : OperationParameter :=
  match g.classMappingById h p.id with
  | .ok s => { p with producer := some s }
  | .error _ => p

def wireSlot (g : Graph) (h : Handle) (s : SetImplementation) : SetImplementation :=
  (s.mapParameters (g.wireParameter h)).mapProperties (g.wireProperty h)

def fault? {α : Type} : Except GraphError α → Option GraphError
  | .ok _ => none
  | .error fault => some fault

def wireFaults (g : Graph) (h : Handle) : List GraphError :=
  match g.mapping? h with
  | some m => m.slots.flatMap fun s =>
    (s.parameters.filterMap fun p => fault? (g.classMappingById h p.id)) ++
      s.properties.filterMap fun p => fault? (g.producer h p)
  | none => []

def wireBody (g : Graph) (h : Handle) : Body → Body
  | .mapping m => .mapping { m with slots := m.slots.map (g.wireSlot h) }
  | b => b

/-- Wires one mapping, and says what could not be wired. -/
def wire (h : Handle) (g : Graph) : Graph × List GraphError :=
  (g.update (fun e => { e with body := g.wireBody h e.body }) h, g.wireFaults h)

def wireAll (g : Graph) : Graph × List GraphError :=
  let mappings := (g.ofKind .mapping).map (·.1)
  (mappings.foldl (fun g h => (g.wire h).1) g, mappings.flatMap g.wireFaults)

end ModelGraph.Graph
