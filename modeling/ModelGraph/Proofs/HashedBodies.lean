import ModelGraph.Proofs.Wiring

namespace ModelGraph

@[simp]
theorem Reference.path_spell {F : Family} (r : Reference F) :
    (spell Link.path F r).path = r.path := rfl

@[simp]
theorem Reference.digest_spell {F : Family} (r : Reference F) :
    (spell Link.path F r).digest = r.digest := rfl

@[simp]
theorem Annotations.hashInput_spell (a : Annotations) :
    (a.rebind (spell Link.path)).hashInput = a.hashInput := by
  simp only [hashInput, rebind, List.map_map]
  rfl

@[simp]
theorem Property.digest_spell (p : Property) : (p.rebind (spell Link.path)).digest = p.digest := by
  simp [digest, hashInput, rebind]

@[simp]
theorem DerivedProperty.digest_spell (p : DerivedProperty) :
    (p.rebind (spell Link.path)).digest = p.digest := by
  simp [digest, hashInput, rebind]

@[simp]
theorem Class.hashInput_spell (path : Path) (c : Class) :
    (c.rebind (spell Link.path)).hashInput path = c.hashInput path := by
  simp [hashInput, rebind, Function.comp_def]

@[simp]
theorem Association.hashInput_spell (path : Path) (a : Association) :
    (a.rebind (spell Link.path)).hashInput path = a.hashInput path := by
  simp [hashInput, rebind, Function.comp_def]

@[simp]
theorem EnumValue.digest_spell (v : EnumValue) : (v.rebind (spell Link.path)).digest = v.digest := by
  simp [digest, hashInput, rebind]

@[simp]
theorem Enumeration.hashInput_spell (path : Path) (e : Enumeration) :
    (e.rebind (spell Link.path)).hashInput path = e.hashInput path := by
  simp [hashInput, rebind, Function.comp_def]

@[simp]
theorem Parameter.digest_spell (p : Parameter) :
    (p.rebind (spell Link.path)).digest = p.digest := rfl

@[simp]
theorem Function.hashInput_spell (path : Path) (f : Function) :
    (f.rebind (spell Link.path)).hashInput path = f.hashInput path := by
  simp [hashInput, rebind, Function.comp_def]

@[simp]
theorem TablePointer.digest_spell (t : TablePointer) :
    (t.rebind (spell Link.path)).digest = t.digest := rfl

@[simp]
theorem JoinPointer.hashInput_spell (p : JoinPointer) :
    (p.rebind (spell Link.path)).hashInput = p.hashInput := rfl

mutual

theorem RelationalOperation.hashInput_spell (o : RelationalOperation) :
    (o.rebind (spell Link.path)).hashInput = o.hashInput := by
  cases o with
  | column table tableAlias name => simp [rebind, hashInput]
  | call name parameters => simp [rebind, hashInput, digests_spell parameters]
  | literal value => simp [rebind, hashInput]
  | joined joins element =>
    cases element with
    | none => simp [rebind, hashInput, List.flatMap_map]
    | some element => simp [rebind, hashInput, List.flatMap_map, hashInput_spell element]

theorem RelationalOperation.digests_spell (os : List RelationalOperation) :
    digests (rebindAll (spell Link.path) os) = digests os := by
  cases os with
  | nil => simp [rebindAll, digests]
  | cons o os => simp [rebindAll, digests, hashInput_spell o, digests_spell os]

end

@[simp]
theorem RelationalOperation.digest_spell (o : RelationalOperation) :
    (o.rebind (spell Link.path)).digest = o.digest :=
  congrArg HashInput.digest o.hashInput_spell

@[simp]
theorem Join.digest_spell (j : Join) : (j.rebind (spell Link.path)).digest = j.digest := by
  simp [digest, hashInput, rebind]

@[simp]
theorem Database.hashInput_spell (path : Path) (d : Database) :
    (d.rebind (spell Link.path)).hashInput path = d.hashInput path := by
  simp [hashInput, rebind, Function.comp_def]

@[simp]
theorem ConnectionStore.path_spell (s : ConnectionStore) :
    (s.rebind (spell Link.path)).path = s.path := by
  cases s <;> rfl

@[simp]
theorem Connection.digest_spell (c : Connection) :
    (c.rebind (spell Link.path)).digest = c.digest := by
  simp [digest, hashInput, rebind, Function.comp_def]

@[simp]
theorem ConnectionValue.hashInput_spell (c : ConnectionValue) :
    (c.rebind (spell Link.path)).hashInput = c.hashInput := by
  cases c <;> simp [rebind, hashInput]

@[simp]
theorem IdentifiedConnection.digest_spell (c : IdentifiedConnection) :
    (c.rebind (spell Link.path)).digest = c.digest := by
  simp [digest, hashInput, rebind]

@[simp]
theorem StoreConnections.hashInput_spell (s : StoreConnections) :
    (s.rebind (spell Link.path)).hashInput = s.hashInput := by
  simp [hashInput, rebind, Function.comp_def, ConnectionStore.digest, ConnectionStore.hashInput]

@[simp]
theorem Runtime.digest_spell (r : Runtime) : (r.rebind (spell Link.path)).digest = r.digest := by
  simp [digest, hashInput, rebind, Function.comp_def, List.flatMap_map]

@[simp]
theorem RuntimeValue.digest_spell (r : RuntimeValue) :
    (r.rebind (spell Link.path)).digest = r.digest := by
  cases r <;> simp [rebind, digest]

@[simp]
theorem Execution.hashInput_spell (e : Execution) :
    (e.rebind (spell Link.path)).hashInput = e.hashInput := by
  simp [hashInput, rebind]

@[simp]
theorem Service.hashInput_spell (path : Path) (s : Service) :
    (s.rebind (spell Link.path)).hashInput path = s.hashInput path := by
  cases he : s.execution <;> simp [hashInput, rebind, HashInput.optional, he]

@[simp]
theorem SourceValue.hashInput_spell (s : SourceValue) :
    (s.rebind (spell Link.path)).hashInput = s.hashInput := by
  cases s <;> rfl

@[simp]
theorem EnumerationMapping.digest_spell (m : EnumerationMapping) :
    (m.rebind (spell Link.path)).digest = m.digest := by
  have hv : ∀ v : EnumValueMapping, EnumValueMapping.digest
      { v with sources := v.sources.map (·.rebind (spell Link.path)) } = v.digest := by
    intro v
    simp [EnumValueMapping.digest, EnumValueMapping.hashInput, List.flatMap_map]
  simp [digest, hashInput, rebind, Function.comp_def, hv]

@[simp]
theorem ClassMappingExtension.digest_spell (e : ClassMappingExtension) :
    (e.rebind (spell Link.path)).digest = e.digest := by
  cases e with
  | services pointers =>
    simp only [digest, hashInput, rebind, List.flatMap_map]
    rfl
  | verbatim v => rfl

@[simp]
theorem ClassMappingExtension.type_spell (e : ClassMappingExtension) :
    (e.rebind (spell Link.path)).type = e.type := by
  cases e <;> rfl

@[simp]
theorem PropertyMapping.digest_spelled (p : PropertyMapping) :
    (p.spelled Link.path).digest = p.digest := by
  cases hk : p.kind <;>
    simp [digest, hashInput, ownerInput, kindInput, spelled, rebind, hk]

/-- The input of a property mapping within a mapping whose slots have the given digests. -/
def PropertyMapping.nestedInput (nested : Nat → Digest) (p : PropertyMapping) : HashInput :=
  .tag .propertyMapping ++ .code p.digest ++
    match p.kind with
    | .embedded i => .code (nested i)
    | _ => []

@[simp]
theorem PropertyMapping.nestedInput_spelled (nested : Nat → Digest) (p : PropertyMapping) :
    (p.spelled Link.path).nestedInput nested = p.nestedInput nested := by
  rw [nestedInput, nestedInput, digest_spelled]
  cases hk : p.kind <;> simp [spelled, rebind, hk]

def Aggregate.nestedInput (nested : Nat → Digest) (a : Aggregate) : HashInput :=
  .word a.index ++ .code a.specification.digest ++ .code (nested a.slot)

def SetImplementationKind.nestedInput (nested : Nat → Digest) : SetImplementationKind → HashInput
  | .pureInstance source filter properties =>
    .text "pureInstance" ++ .optText (source.map (·.path.text)) ++ .optional .json filter ++
      .codes (properties.map fun p => (p.nestedInput nested).digest)
  | .relational distinct table key properties =>
    .text "relational" ++ .flag distinct ++ .optCode (table.map TablePointer.digest) ++
      .codes (key.map RelationalOperation.digest) ++
      .codes (properties.map fun p => (p.nestedInput nested).digest)
  | .embedded properties =>
    .text "embedded" ++ .codes (properties.map fun p => (p.nestedInput nested).digest)
  | .aggregationAware main aggregates properties =>
    .text "aggregationAware" ++ .code (nested main) ++
      (aggregates.flatMap (Aggregate.nestedInput nested) ++
        .codes (properties.map fun p => (p.nestedInput nested).digest))
  | .operation o parameters =>
    .text "operation" ++ .text o.text ++ .texts (parameters.map OperationParameter.id)
  | .extension e => .text e.type ++ .code e.digest

@[simp]
theorem SetImplementationKind.nestedInput_spelled (nested : Nat → Digest)
    (k : SetImplementationKind) :
    (k.spelled Link.path).nestedInput nested = k.nestedInput nested := by
  cases k <;> simp [nestedInput, spelled, Function.comp_def]

namespace Mapping

variable (m : Mapping)

theorem slotInput_succ (fuel index : Nat) :
    m.slotInput (fuel + 1) index =
      match m.slots[index]? with
      | none => .tag .setImplementation ++ .text "<missing>"
      | some s =>
        .tag .setImplementation ++ .optText s.id.written ++ .text s.target.path.text ++
          .flag s.root ++ s.kind.nestedInput fun i => (m.slotInput fuel i).digest := by
  rw [slotInput]
  cases m.slots[index]? with
  | none => rfl
  | some s =>
    cases hk : s.kind <;> simp only [hk] <;> rfl

theorem slotInput_spelled (fuel index : Nat) :
    (m.spelled Link.path).slotInput fuel index = m.slotInput fuel index := by
  induction fuel generalizing index with
  | zero => rfl
  | succ fuel ih =>
    simp only [slotInput_succ, slots_spelled, List.getElem?_map, ih]
    cases m.slots[index]? with
    | none => rfl
    | some s =>
      simp only [Option.map_some, SetImplementation.spelled, Reference.path_spell,
        SetImplementationKind.nestedInput_spelled]

theorem hashInput_spelled (path : Path) :
    (m.spelled Link.path).hashInput path = m.hashInput path := by
  have hslot : (m.spelled Link.path).slotDigest = m.slotDigest := by
    funext index
    rw [slotDigest, slotDigest, slotInput_spelled, slots_spelled, List.length_map]
  have hincludes :
      (m.spelled Link.path).includes.map Reference.digest = m.includes.map Reference.digest := by
    simp [spelled, unwire, rebind, Function.comp_def]
  have henumerations : (m.spelled Link.path).enumerationMappings.map EnumerationMapping.digest =
      m.enumerationMappings.map EnumerationMapping.digest := by
    simp [spelled, unwire, rebind, Function.comp_def]
  rw [hashInput, hslot, hincludes, henumerations]
  rfl

end Mapping

@[simp]
theorem Extension.hashInput_spell (path : Path) (e : Extension) :
    (e.rebind (spell Link.path)).hashInput path = e.hashInput path := by
  cases e with
  | text t => rfl
  | diagram d =>
    simp only [rebind, hashInput, Diagram.rebind, Diagram.hashInput, List.flatMap_map]
    rfl
  | serviceStore s =>
    simp [rebind, hashInput, ServiceStore.rebind, ServiceStore.hashInput, Function.comp_def]
  | schema s =>
    simp only [rebind, hashInput, SerializerSchema.rebind, SerializerSchema.hashInput,
      List.flatMap_map, List.map_map, Option.map_map]
    rfl
  | verbatim v => rfl

namespace Body

theorem digest_spelled (path : Path) (b : Body) :
    (b.spelled Link.path).digest path = b.digest path := by
  refine congrArg HashInput.digest ?_
  cases b with
  | mapping m => exact m.hashInput_spelled path
  | package children => rfl
  | primitiveType => rfl
  | profile p => rfl
  | enumeration e => exact e.hashInput_spell path
  | «class» c => exact c.hashInput_spell path
  | association a => exact a.hashInput_spell path
  | function f => exact f.hashInput_spell path
  | database d => exact d.hashInput_spell path
  | connection c =>
    simp [spelled, rebind, unwire, hashInput, Connection.elementHashInput]
  | runtime r =>
    simp [spelled, rebind, unwire, hashInput, Runtime.elementHashInput]
  | service s => exact s.hashInput_spell path
  | extension e => exact e.hashInput_spell path

theorem digest_rebind {f : Rebinding} {b : Body} (hf : ∀ l ∈ b.links, (f.onLink l).path = l.path)
    (path : Path) : (b.rebind f).digest path = b.digest path := by
  rw [← digest_spelled, ← digest_spelled path b, spelled, spelled, rebind_rebind]
  refine congrArg (fun b : Body => b.unwire.digest path) (rebind_eq_iff.mpr ?_)
  intro l hl
  exact congrArg (fun p => (⟨l.family, p, none⟩ : Link)) (hf l hl)

theorem digest_of_unwire {b b' : Body} (h : b'.unwire = b.unwire) (path : Path) :
    b'.digest path = b.digest path := by
  rw [← digest_spelled, ← digest_spelled path b, spelled_of_unwire h]

@[simp]
theorem digest_mapChildren (f : List Handle → List Handle) (path : Path) (b : Body) :
    (b.mapChildren f).digest path = b.digest path := by
  cases b <;> rfl

end Body

end ModelGraph
