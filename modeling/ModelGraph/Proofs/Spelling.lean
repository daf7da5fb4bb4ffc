import ModelGraph.Graph.Written
import ModelGraph.Proofs.Presets
import ModelGraph.Proofs.StoreDocuments

namespace ModelGraph

def spell (names : Naming) : Rebinding := fun _ r => ⟨names r.link, none⟩

section Documents

variable (names : Naming)

@[simp]
theorem Reference.toJson_spell {F : Family} (r : Reference F) :
    (spell names F r).toJson Link.path = r.toJson names := rfl

@[simp]
theorem Annotations.record_spell (a : Annotations) :
    (a.rebind (spell names)).record Link.path = a.record names := by
  simp [record, rebind, Function.comp_def, Stereotype.toJson, TaggedValue.toJson]

@[simp]
theorem Property.toJson_spell (p : Property) :
    (p.rebind (spell names)).toJson Link.path = p.toJson names := by
  simp [toJson, rebind]

@[simp]
theorem DerivedProperty.toJson_spell (p : DerivedProperty) :
    (p.rebind (spell names)).toJson Link.path = p.toJson names := by
  simp [toJson, rebind]

@[simp]
theorem Class.toJson_spell (c : Class) :
    (c.rebind (spell names)).toJson Link.path = c.toJson names := by
  simp [toJson, rebind, Function.comp_def]

@[simp]
theorem Association.toJson_spell (a : Association) :
    (a.rebind (spell names)).toJson Link.path = a.toJson names := by
  simp [toJson, rebind, Function.comp_def]

@[simp]
theorem Enumeration.toJson_spell (e : Enumeration) :
    (e.rebind (spell names)).toJson Link.path = e.toJson names := by
  simp [toJson, rebind, EnumValue.rebind, EnumValue.toJson, Function.comp_def]

@[simp]
theorem Function.toJson_spell (f : Function) :
    (f.rebind (spell names)).toJson Link.path = f.toJson names := by
  simp [toJson, rebind, Parameter.rebind, Parameter.toJson, Function.comp_def]

@[simp]
theorem TablePointer.toJson_spell (t : TablePointer) :
    (t.rebind (spell names)).toJson Link.path = t.toJson names := rfl

@[simp]
theorem JoinPointer.toJson_spell (p : JoinPointer) :
    (p.rebind (spell names)).toJson Link.path = p.toJson names := rfl

mutual

@[simp]
theorem RelationalOperation.toJson_spell (o : RelationalOperation) :
    (o.rebind (spell names)).toJson Link.path = o.toJson names := by
  cases o with
  | column table tableAlias name => simp [rebind, toJson]
  | call name parameters => simp [rebind, toJson, toJsons_spell parameters]
  | literal value => simp [rebind, toJson]
  | joined joins element =>
    cases element with
    | none => simp [rebind, toJson, Function.comp_def]
    | some element => simp [rebind, toJson, Function.comp_def, toJson_spell element]

theorem RelationalOperation.toJsons_spell (os : List RelationalOperation) :
    toJsons Link.path (rebindAll (spell names) os) = toJsons names os := by
  cases os with
  | nil => simp [rebindAll, toJsons]
  | cons o os => simp [rebindAll, toJsons, toJson_spell o, toJsons_spell os]

end

@[simp]
theorem Database.toJson_spell (d : Database) :
    (d.rebind (spell names)).toJson Link.path = d.toJson names := by
  simp [toJson, rebind, Join.rebind, Join.toJson, Function.comp_def]

@[simp]
theorem ConnectionStore.toJson_spell (s : ConnectionStore) :
    (s.rebind (spell names)).toJson Link.path = s.toJson names := by
  cases s <;> rfl

@[simp]
theorem Connection.toJson_spell (c : Connection) :
    (c.rebind (spell names)).toJson Link.path = c.toJson names := by
  simp [toJson, rebind, Function.comp_def]

@[simp]
theorem ConnectionValue.toJson_spell (c : ConnectionValue) :
    (c.rebind (spell names)).toJson Link.path = c.toJson names := by
  cases c <;> simp [rebind, toJson]

@[simp]
theorem StoreConnections.toJson_spell (s : StoreConnections) :
    (s.rebind (spell names)).toJson Link.path = s.toJson names := by
  simp [toJson, rebind, IdentifiedConnection.rebind, IdentifiedConnection.toJson,
    Function.comp_def]

@[simp]
theorem Runtime.toJson_spell (r : Runtime) :
    (r.rebind (spell names)).toJson Link.path = r.toJson names := by
  simp [toJson, rebind, Function.comp_def]

@[simp]
theorem RuntimeValue.toJson_spell (r : RuntimeValue) :
    (r.rebind (spell names)).toJson Link.path = r.toJson names := by
  cases r <;> simp [rebind, toJson]

@[simp]
theorem Execution.toJson_spell (e : Execution) :
    (e.rebind (spell names)).toJson Link.path = e.toJson names := by
  simp [rebind, toJson]

@[simp]
theorem Service.toJson_spell (s : Service) :
    (s.rebind (spell names)).toJson Link.path = s.toJson names := by
  simp [rebind, toJson, Function.comp_def]

@[simp]
theorem SourceValue.toJson_spell (s : SourceValue) :
    (s.rebind (spell names)).toJson Link.path = s.toJson names := by
  cases s <;> rfl

@[simp]
theorem EnumerationMapping.toJson_spell (m : EnumerationMapping) :
    (m.rebind (spell names)).toJson Link.path = m.toJson names := by
  simp [rebind, toJson, EnumValueMapping.toJson, Function.comp_def]

@[simp]
theorem MappingDocument.includeJson_spell (r : Reference .mapping) :
    includeJson Link.path (spell names _ r) = includeJson names r := rfl

@[simp]
theorem Diagram.toJson_spell (d : Diagram) :
    (d.rebind (spell names)).toJson Link.path = d.toJson names := by
  simp [rebind, toJson, ClassView.toJson, Function.comp_def]

@[simp]
theorem ServiceStore.toJson_spell (s : ServiceStore) :
    (s.rebind (spell names)).toJson Link.path = s.toJson names := by
  simp [rebind, toJson, Function.comp_def]

@[simp]
theorem SerializerSchema.toJson_spell (s : SerializerSchema) :
    (s.rebind (spell names)).toJson Link.path = s.toJson names := by
  simp [rebind, toJson, FieldName.toJson, Function.comp_def]

end Documents

def PropertyMapping.spelled (names : Naming) (p : PropertyMapping) : PropertyMapping :=
  { p.rebind (spell names) with producer := none }

def SetImplementationKind.spelled (names : Naming) : SetImplementationKind → SetImplementationKind
  | .pureInstance source filter properties =>
    .pureInstance (source.map (spell names _)) filter (properties.map (·.spelled names))
  | .relational distinct table key properties =>
    .relational distinct (table.map (·.rebind (spell names))) (key.map (·.rebind (spell names)))
      (properties.map (·.spelled names))
  | .embedded properties => .embedded (properties.map (·.spelled names))
  | .aggregationAware main aggregates properties =>
    .aggregationAware main aggregates (properties.map (·.spelled names))
  | .operation o parameters => .operation o (parameters.map fun p => { p with producer := none })
  | .extension e => .extension (e.rebind (spell names))

def SetImplementation.spelled (names : Naming) (s : SetImplementation) : SetImplementation :=
  { s with target := spell names _ s.target, kind := s.kind.spelled names }

theorem SetImplementation.unwire_rebind_spell (names : Naming) (s : SetImplementation) :
    (s.rebind (spell names)).unwire = s.spelled names := by
  cases hk : s.kind <;>
    simp [spelled, SetImplementationKind.spelled, rebind, rebindKind, unwire, mapProperties,
      mapParameters, hk, PropertyMapping.spelled]

namespace Mapping

def spelled (names : Naming) (m : Mapping) : Mapping := (m.rebind (spell names)).unwire

variable {names : Naming} {m : Mapping}

theorem slots_spelled : (m.spelled names).slots = m.slots.map (SetImplementation.spelled names) := by
  simp [spelled, unwire, rebind, SetImplementation.unwire_rebind_spell]

theorem slot_spelled (index : Nat) :
    (m.spelled names).slot index = (m.slot index).map (SetImplementation.spelled names) := by
  rw [slot, slot, slots_spelled, List.getElem?_map]
  cases m.slots[index]? <;> rfl

theorem propertyJson_spelled (fuel : Nat) (p : PropertyMapping) :
    propertyJson Link.path (m.spelled names) fuel (p.spelled names) =
      propertyJson names m fuel p := by
  induction fuel generalizing p with
  | zero => rfl
  | succ fuel ih =>
    cases hk : p.kind with
    | embedded index =>
      simp only [propertyJson, PropertyMapping.spelled, PropertyMapping.rebind, hk,
        PropertyMappingDocument.pointerJson, slot_spelled, Reference.toJson_spell]
      cases m.slot index with
      | error fault => rfl
      | ok s =>
        simp only [Except.map, ok_bind, SetImplementation.spelled]
        cases s.kind with
        | embedded properties =>
          simp only [SetImplementationKind.spelled, List.mapM_map, Function.comp_def, ih,
            Reference.toJson_spell]
        | _ => rfl
    | _ =>
      simp [propertyJson, PropertyMapping.spelled, PropertyMapping.rebind, hk,
        PropertyMappingDocument.pointerJson]

theorem record_spelled (s : SetImplementation) :
    ClassMappingHeader.record Link.path (s.spelled names) = ClassMappingHeader.record names s := rfl

theorem classMappingJson_spelled (fuel index : Nat) :
    classMappingJson Link.path (m.spelled names) fuel index = classMappingJson names m fuel index := by
  have hlength : (m.spelled names).slots.length = m.slots.length := by
    rw [slots_spelled, List.length_map]
  have hproperties : ∀ properties : List PropertyMapping,
      (properties.map (PropertyMapping.spelled names)).mapM
        (propertyJson Link.path (m.spelled names) (m.slots.length + 1)) =
          properties.mapM (propertyJson names m (m.slots.length + 1)) := by
    intro properties
    simp only [List.mapM_map, Function.comp_def, propertyJson_spelled]
  induction fuel generalizing index with
  | zero => rfl
  | succ fuel ih =>
    simp only [classMappingJson, slot_spelled, hlength]
    cases m.slot index with
    | error fault => rfl
    | ok s =>
      simp only [Except.map, ok_bind, record_spelled]
      simp only [SetImplementation.spelled]
      cases s.kind with
      | pureInstance source filter properties =>
        simp only [SetImplementationKind.spelled, hproperties, Option.map_map, Function.comp_def,
          Reference.toJson_spell]
      | relational distinct table key properties =>
        simp only [SetImplementationKind.spelled, hproperties, Option.map_map, Function.comp_def,
          TablePointer.toJson_spell, RelationalOperation.toJsons_eq, List.map_map,
          RelationalOperation.toJson_spell]
      | aggregationAware main aggregates properties =>
        simp only [SetImplementationKind.spelled, hproperties, ih]
      | operation o parameters =>
        simp only [SetImplementationKind.spelled, List.map_map, Function.comp_def]
      | embedded properties => rfl
      | extension e => cases e <;> rfl

end Mapping

namespace Graph

/-- The graph of no elements. What is written in it has no bound reference to follow. -/
def bare (r : Registry) : Graph := { registry := r }

theorem referencePath_bare (r : Registry) : (bare r).referencePath = Link.path := by
  funext l
  cases h : l.target <;> simp [referencePath, h, element?, bare]

theorem registry_bare (r : Registry) : (bare r).registry = r := rfl

end Graph

def Body.spelled (names : Naming) (b : Body) : Body := (b.rebind (spell names)).unwire

theorem Preset.write_spell {ps : List Preset} {r : Registry} (hr : registry ps = .ok r)
    {k : ElementKind} (hk : k ∈ r.kinds) (names : Naming) (x : Extension) :
    k.write Link.path (x.rebind (spell names)) = k.write names x := by
  rcases mem_kinds hr hk with rfl | rfl | rfl | rfl <;>
    cases x <;> simp [textKind, diagramKind, serviceStoreKind, schemaKind, Extension.rebind]

theorem Preset.writeMapping_spell {ps : List Preset} {r : Registry} (hr : registry ps = .ok r)
    {k : MappingKind} (hk : k ∈ r.mappings) (names : Naming) (x : ClassMappingExtension) :
    k.write Link.path (x.rebind (spell names)) = k.write names x := by
  rw [mem_mappings hr hk]
  cases x <;>
    simp [serviceMappingKind, ClassMappingExtension.rebind, ClassMappingExtension.servicesToJson,
      ServicePointer.toJson, Function.comp_def]

/-- What extensions are written as depends on what their references are called, and not on what they
are bound to. -/
structure Registry.WritesByName (r : Registry) : Prop where
  kinds : ∀ k ∈ r.kinds, ∀ names x, k.write Link.path (x.rebind (spell names)) = k.write names x
  mappings : ∀ k ∈ r.mappings, ∀ names x,
    k.write Link.path (x.rebind (spell names)) = k.write names x

theorem Preset.writesByName {ps : List Preset} {r : Registry} (hr : registry ps = .ok r) :
    r.WritesByName :=
  ⟨fun _ hk => write_spell hr hk, fun _ hk => writeMapping_spell hr hk⟩

namespace Graph

variable {g : Graph}

theorem classMappingJson_spelled (hw : g.registry.WritesByName) (path : Path)
    (m : Mapping) (index : Nat) :
    (bare g.registry).classMappingJson path (m.spelled g.referencePath) index =
      g.classMappingJson path m index := by
  rw [classMappingJson, classMappingJson, referencePath_bare, registry_bare, Mapping.slot_spelled]
  cases m.slot index with
  | error fault => rfl
  | ok s =>
    have hlength : (m.spelled g.referencePath).slots.length = m.slots.length := by
      rw [Mapping.slots_spelled, List.length_map]
    simp only [Except.map, mapError_ok, ok_bind, Mapping.record_spelled]
    simp only [SetImplementation.spelled, Mapping.classMappingJson_spelled, hlength]
    cases s.kind with
    | extension x =>
      have htype : (x.rebind (spell g.referencePath)).type = x.type := by
        cases x <;> rfl
      simp only [SetImplementationKind.spelled, htype]
      cases hk : g.registry.mapping? x.type with
      | none => rfl
      | some k =>
        simp only [hw.mappings k (List.mem_of_find?_eq_some hk)]
    | _ => rfl

theorem mappingJson_spelled (hw : g.registry.WritesByName) (path : Path)
    (m : Mapping) :
    (bare g.registry).mappingJson path (m.spelled g.referencePath) = g.mappingJson path m := by
  simp only [mappingJson, funext (classMappingJson_spelled hw path m)]
  simp [Mapping.spelled, Mapping.unwire, Mapping.rebind, referencePath_bare, Function.comp_def]

theorem extensionEntity_spelled (hw : g.registry.WritesByName) (e : Element)
    (b : Body) (x : Extension) :
    (bare g.registry).extensionEntity { e with body := b } (x.rebind (spell g.referencePath)) =
      g.extensionEntity e x := by
  simp only [extensionEntity, registry_bare, Extension.kind_rebind, referencePath_bare]
  cases hk : g.registry.kind? x.kind with
  | none => rfl
  | some k =>
    simp only [hw.kinds k (List.mem_of_find?_eq_some hk)]
    rfl

theorem entity?_spelled (hw : g.registry.WritesByName) (e : Element) :
    (bare g.registry).entity? { e with body := e.body.spelled g.referencePath } = g.entity? e := by
  simp only [entity?, referencePath_bare, Body.spelled]
  cases hb : e.body with
  | mapping m =>
    have hm : (m.rebind (spell g.referencePath)).unwire = m.spelled g.referencePath := rfl
    simp only [Body.rebind, Body.unwire, hm, mappingJson_spelled hw]
    rfl
  | extension x =>
    have hx := extensionEntity_spelled hw e (.extension (x.rebind (spell g.referencePath))) x
    simp only [Body.rebind, Body.unwire, hx]
  | _ =>
    simp only [Body.rebind, Body.unwire, Enumeration.toJson_spell, Class.toJson_spell,
      Association.toJson_spell, Function.toJson_spell, Database.toJson_spell,
      Connection.toElementJson, Connection.toJson_spell, Runtime.toElementJson, Runtime.toJson_spell,
      Service.toJson_spell] <;> rfl

end Graph

end ModelGraph
