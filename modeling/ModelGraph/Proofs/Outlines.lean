import ModelGraph.Proofs.WrittenModels

namespace ModelGraph

namespace Body

@[simp]
theorem kind_standard (b : Body) : b.standard.kind = b.kind := by
  cases b <;> rfl

@[simp]
theorem links_standard (b : Body) : b.standard.links = b.links := by
  cases b <;> rfl

@[simp]
theorem links_hull (b : Body) : b.hull.links = b.links := links_mapChildren _ b

theorem standard_rebind (f : Rebinding) (b : Body) : (b.rebind f).standard = b.standard.rebind f := by
  cases b <;> rfl

theorem unwire_standard (b : Body) : b.standard.unwire = b.unwire.standard := by
  cases b <;> rfl

end Body

theorem Column.standard_standard (c : Column) : c.standard.standard = c.standard := by
  cases ht : ColumnType.ofText? c.dataType with
  | none =>
    have hs : c.standard = c := by rw [standard, ht]
    rw [hs, hs]
  | some t =>
    have hs : c.standard = { c with dataType := t.text } := by rw [standard, ht]
    rw [hs, standard, ColumnType.ofText?_text (ColumnType.isStandard_of_ofText? ht)]

namespace Database

theorem standard_standard (d : Database) : d.standard.standard = d.standard := by
  simp [standard, Schema.standard, Table.standard, Column.standard_standard, Function.comp_def]

theorem isSome_table?_standard (d : Database) (schema table : String) :
    (d.standard.table? schema table).isSome = (d.table? schema table).isSome := by
  have hs : d.standard.schema? schema = (d.schema? schema).map Schema.standard := by
    rw [schema?, schema?, standard, List.find?_map]
    rfl
  rw [table?, table?, hs]
  cases d.schema? schema with
  | none => rfl
  | some s =>
    have ht : s.standard.tables.find? (·.name == table) =
        (s.tables.find? (·.name == table)).map Table.standard := by
      rw [Schema.standard, List.find?_map]
      rfl
    simp [ht]

theorem hasJoin_rebind (f : Rebinding) (d : Database) (name : String) :
    (d.rebind f).hasJoin name = d.hasJoin name := by
  simp [hasJoin, rebind, Join.rebind, Function.comp_def]

end Database

namespace SetImplementation

variable (s : SetImplementation)

theorem mainTable?_unwire : s.unwire.mainTable? = s.mainTable? := by
  cases hk : s.kind <;> simp [mainTable?, unwire, mapProperties, mapParameters, hk]

theorem primaryKey_unwire : s.unwire.primaryKey = s.primaryKey := by
  cases hk : s.kind <;> simp [primaryKey, unwire, mapProperties, mapParameters, hk]

theorem properties_unwire :
    s.unwire.properties = s.properties.map fun p => { p with producer := none } := by
  cases hk : s.kind <;> simp [properties, unwire, mapProperties, mapParameters, hk]

theorem parameters_unwire :
    s.unwire.parameters = s.parameters.map fun p => { p with producer := none } := by
  cases hk : s.kind <;> simp [parameters, unwire, mapProperties, mapParameters, hk]

theorem mainTable?_rebind (f : Rebinding) :
    (s.rebind f).mainTable? = s.mainTable?.map (TablePointer.rebind f) := by
  cases hk : s.kind <;> simp [mainTable?, rebind, rebindKind, hk]

theorem primaryKey_rebind (f : Rebinding) :
    (s.rebind f).primaryKey = s.primaryKey.map (RelationalOperation.rebind f) := by
  cases hk : s.kind <;> simp [primaryKey, rebind, rebindKind, hk]

theorem properties_rebind (f : Rebinding) :
    (s.rebind f).properties = s.properties.map (PropertyMapping.rebind f) := by
  cases hk : s.kind <;> simp [properties, rebind, rebindKind, hk]

theorem parameters_rebind (f : Rebinding) : (s.rebind f).parameters = s.parameters := by
  cases hk : s.kind <;> simp [parameters, rebind, rebindKind, hk]

/-- The set implementation without its id, and with nothing bound by wiring. -/
def anonymous : SetImplementation := { s.unwire with id := .explicit "" }

theorem anonymous_unwire : s.unwire.anonymous = s.anonymous := by
  rw [anonymous, unwire_unwire, anonymous]

theorem anonymous_rebind (f : Rebinding) : (s.rebind f).anonymous = s.anonymous.rebind f := by
  rw [anonymous, unwire_rebind]
  rfl

theorem anonymous_renewed : s.renewed.anonymous = s.anonymous := rfl

theorem links_anonymous : s.anonymous.links = s.links := s.links_unwire

theorem mainTable?_anonymous : s.anonymous.mainTable? = s.mainTable? := s.mainTable?_unwire

theorem primaryKey_anonymous : s.anonymous.primaryKey = s.primaryKey := s.primaryKey_unwire

theorem properties_anonymous :
    s.anonymous.properties = s.properties.map fun p => { p with producer := none } :=
  s.properties_unwire

theorem parameters_anonymous :
    s.anonymous.parameters = s.parameters.map fun p => { p with producer := none } :=
  s.parameters_unwire

end SetImplementation

theorem PropertyMapping.operation?_rebind (f : Rebinding) (p : PropertyMapping) :
    (p.rebind f).operation? = p.operation?.map (RelationalOperation.rebind f) := by
  cases hk : p.kind <;> simp [operation?, rebind, hk]

namespace Mapping

/-- The set implementations of a mapping without their ids, and where they are found. -/
def outline (m : Mapping) : Mapping :=
  { m with enumerationMappings := [], slots := m.slots.map SetImplementation.anonymous }

theorem outline_unwire (m : Mapping) : m.unwire.outline = m.outline := by
  simp [outline, unwire, SetImplementation.anonymous_unwire]

theorem outline_rebind (f : Rebinding) (m : Mapping) : (m.rebind f).outline = m.outline.rebind f := by
  simp [outline, rebind, SetImplementation.anonymous_rebind]

theorem outline_renewed (m : Mapping) : m.renewed.outline = m.outline := by
  simp [outline, renewed, SetImplementation.anonymous_renewed]

theorem links_outline_subset (m : Mapping) : m.outline.links ⊆ m.links := by
  intro l hl
  simp only [links, outline, List.flatMap_map, SetImplementation.links_anonymous,
    List.flatMap_nil, List.append_nil] at hl
  exact List.mem_append_left _ hl

end Mapping

namespace Body

/-- What of a body the wiring and the validation look at, but for the ids of class mappings. -/
def outline : Body → Body
  | .package _ => .package []
  | .database d => .database d.standard
  | .mapping m => .mapping m.outline
  | .connection _ => .connection { type := "" }
  | .runtime _ => .runtime {}
  | .service s => .service { annotations := s.annotations }
  | b => b

@[simp]
theorem outline_hull (b : Body) : b.hull.outline = b.outline := by
  cases b <;> rfl

@[simp]
theorem outline_unwire (b : Body) : b.unwire.outline = b.outline := by
  cases b with
  | mapping m => exact congrArg mapping m.outline_unwire
  | _ => rfl

@[simp]
theorem outline_standard (b : Body) : b.standard.outline = b.outline := by
  cases b with
  | database d => exact congrArg database d.standard_standard
  | _ => rfl

@[simp]
theorem outline_renewed (b : Body) : b.renewed.outline = b.outline := by
  cases b with
  | database d => exact congrArg database d.standard_standard
  | mapping m => exact congrArg mapping m.outline_renewed
  | _ => rfl

theorem outline_rebind (f : Rebinding) (b : Body) : (b.rebind f).outline = b.outline.rebind f := by
  cases b with
  | mapping m => exact congrArg mapping (m.outline_rebind f)
  | _ => rfl

theorem outline_of_unwire {b b' : Body} (h : b'.unwire = b.unwire) : b'.outline = b.outline := by
  rw [← outline_unwire b', h, outline_unwire]

@[simp]
theorem kind_outline (b : Body) : b.outline.kind = b.kind := by
  cases b <;> rfl

theorem kind_of_outline {b b' : Body} (h : b'.outline = b.outline) : b'.kind = b.kind := by
  rw [← kind_outline b', h, kind_outline]

theorem links_outline_subset (b : Body) : b.outline.links ⊆ b.links := by
  cases b with
  | mapping m => exact m.links_outline_subset
  | connection c => exact List.nil_subset _
  | runtime r => exact List.nil_subset _
  | service s => exact List.subset_append_right _ _
  | _ => exact List.Subset.refl _

theorem storeIncludes?_outline (b : Body) : b.outline.storeIncludes? = b.storeIncludes? := by
  cases b <;> rfl

theorem storeIncludes?_rebind (f : Rebinding) (b : Body) :
    (b.rebind f).storeIncludes? = b.storeIncludes?.map (List.map (f .store)) := by
  cases b with
  | extension x => cases x <;> rfl
  | _ => rfl

def profile? : Body → Option Profile
  | .profile p => some p
  | _ => none

def class? : Body → Option Class
  | .class c => some c
  | _ => none

def association? : Body → Option Association
  | .association a => some a
  | _ => none

def database? : Body → Option Database
  | .database d => some d
  | _ => none

def mapping? : Body → Option Mapping
  | .mapping m => some m
  | _ => none

theorem profile?_outline (b : Body) : b.outline.profile? = b.profile? := by
  cases b <;> rfl

theorem profile?_rebind (f : Rebinding) (b : Body) : (b.rebind f).profile? = b.profile? := by
  cases b <;> rfl

theorem class?_outline (b : Body) : b.outline.class? = b.class? := by
  cases b <;> rfl

theorem class?_rebind (f : Rebinding) (b : Body) :
    (b.rebind f).class? = b.class?.map (Class.rebind f) := by
  cases b <;> rfl

theorem association?_outline (b : Body) : b.outline.association? = b.association? := by
  cases b <;> rfl

theorem association?_rebind (f : Rebinding) (b : Body) :
    (b.rebind f).association? = b.association?.map (Association.rebind f) := by
  cases b <;> rfl

theorem database?_outline (b : Body) :
    b.outline.database?.map Database.standard = b.database?.map Database.standard := by
  cases b with
  | database d => exact congrArg some d.standard_standard
  | _ => rfl

theorem database?_rebind (f : Rebinding) (b : Body) :
    (b.rebind f).database? = b.database?.map (Database.rebind f) := by
  cases b <;> rfl

theorem eq_mapping {b : Body} {m : Mapping} (hm : b.mapping? = some m) : b = .mapping m := by
  cases b with
  | mapping m' => exact congrArg Body.mapping (Option.some.inj hm)
  | _ => cases hm

theorem mapping?_outline (b : Body) : b.outline.mapping? = b.mapping?.map Mapping.outline := by
  cases b <;> rfl

theorem mapping?_rebind (f : Rebinding) (b : Body) :
    (b.rebind f).mapping? = b.mapping?.map (Mapping.rebind f) := by
  cases b <;> rfl

theorem mapping?_unwire (b : Body) : b.unwire.mapping? = b.mapping?.map Mapping.unwire := by
  cases b <;> rfl

theorem mapping?_prune (isDead : Handle → Bool) (b : Body) :
    (b.prune isDead).mapping? = b.mapping?.map (Mapping.prune isDead) := by
  cases b <;> rfl

theorem mapping?_mapChildren (f : List Handle → List Handle) (b : Body) :
    (b.mapChildren f).mapping? = b.mapping? := by
  cases b <;> rfl

end Body

theorem Graph.mapping?_eq (g : Graph) (h : Handle) :
    g.mapping? h = (g.body? h).bind Body.mapping? := by
  rw [mapping?]
  cases g.body? h with
  | none => rfl
  | some b => cases b <;> rfl

namespace Family

@[simp]
theorem admits_outline (F : Family) (b : Body) : F.admits b.outline = F.admits b := by
  cases b <;> cases F <;> rfl

@[simp]
theorem admits_hull (F : Family) (b : Body) : F.admits b.hull = F.admits b := by
  cases b <;> cases F <;> rfl

@[simp]
theorem admits_rebind (F : Family) (f : Rebinding) (b : Body) :
    F.admits (b.rebind f) = F.admits b := by
  cases b with
  | extension x => cases x <;> cases F <;> rfl
  | _ => cases F <;> rfl

end Family

mutual

theorem RelationalOperation.tables_rebind (f : Rebinding) (o : RelationalOperation) :
    (o.rebind f).tables = o.tables.map (TablePointer.rebind f) := by
  cases o with
  | column table tableAlias name => simp [rebind, tables]
  | call name parameters => simp [rebind, tables, tablesOf_rebindAll f parameters]
  | literal value => simp [rebind, tables]
  | joined joins element =>
    cases element with
    | none => simp [rebind, tables]
    | some element => simp [rebind, tables, tables_rebind f element]

theorem RelationalOperation.tablesOf_rebindAll (f : Rebinding) (os : List RelationalOperation) :
    tablesOf (rebindAll f os) = (tablesOf os).map (TablePointer.rebind f) := by
  cases os with
  | nil => simp [rebindAll, tablesOf]
  | cons o os => simp [rebindAll, tablesOf, tables_rebind f o, tablesOf_rebindAll f os]

end

mutual

theorem RelationalOperation.joins_rebind (f : Rebinding) (o : RelationalOperation) :
    (o.rebind f).joins = o.joins.map (JoinPointer.rebind f) := by
  cases o with
  | column table tableAlias name => simp [rebind, RelationalOperation.joins]
  | call name parameters =>
    simp [rebind, RelationalOperation.joins, joinsOf_rebindAll f parameters]
  | literal value => simp [rebind, RelationalOperation.joins]
  | joined joins element =>
    cases element with
    | none => simp [rebind, RelationalOperation.joins]
    | some element => simp [rebind, RelationalOperation.joins, joins_rebind f element]

theorem RelationalOperation.joinsOf_rebindAll (f : Rebinding) (os : List RelationalOperation) :
    joinsOf (rebindAll f os) = (joinsOf os).map (JoinPointer.rebind f) := by
  cases os with
  | nil => simp [rebindAll, joinsOf]
  | cons o os => simp [rebindAll, joinsOf, joins_rebind f o, joinsOf_rebindAll f os]

end

namespace Graph

theorem annotations_outline (b : Body) : annotations b.outline = annotations b := by
  cases b <;> rfl

theorem annotations_rebind (f : Rebinding) (b : Body) :
    annotations (b.rebind f) = (annotations b).map (Annotations.rebind f) := by
  cases b <;>
    simp [annotations, Body.rebind, Class.rebind, Association.rebind, Enumeration.rebind,
      EnumValue.rebind, Function.rebind, Service.rebind, Property.rebind, DerivedProperty.rebind,
      Function.comp_def]

theorem mainTables_outline (b : Body) : mainTables b.outline = mainTables b := by
  cases b with
  | mapping m =>
    simp [mainTables, Body.outline, Mapping.outline, List.filterMap_map,
      SetImplementation.mainTable?_anonymous]
  | _ => rfl

theorem mainTables_rebind (f : Rebinding) (b : Body) :
    mainTables (b.rebind f) = (mainTables b).map (TablePointer.rebind f) := by
  cases b with
  | mapping m =>
    simp [mainTables, Body.rebind, Mapping.rebind, List.filterMap_map, List.map_filterMap,
      SetImplementation.mainTable?_rebind]
  | _ => rfl

theorem slotOperations_anonymous (s : SetImplementation) :
    slotOperations s.anonymous = slotOperations s := by
  have hp : ∀ p : PropertyMapping,
      PropertyMapping.operation? { p with producer := none } = p.operation? := fun _ => rfl
  simp [slotOperations, SetImplementation.primaryKey_anonymous,
    SetImplementation.properties_anonymous, List.filterMap_map, hp]

theorem slotOperations_rebind (f : Rebinding) (s : SetImplementation) :
    slotOperations (s.rebind f) = (slotOperations s).map (RelationalOperation.rebind f) := by
  simp [slotOperations, SetImplementation.primaryKey_rebind, SetImplementation.properties_rebind,
    List.filterMap_map, List.map_filterMap, PropertyMapping.operation?_rebind]

theorem operations_outline (b : Body) : operations b.outline = operations b := by
  cases b with
  | mapping m =>
    simp [operations, Body.outline, Mapping.outline, List.flatMap_map, slotOperations_anonymous]
  | _ => rfl

theorem operations_rebind (f : Rebinding) (b : Body) :
    operations (b.rebind f) = (operations b).map (RelationalOperation.rebind f) := by
  cases b with
  | database d =>
    simp [operations, Body.rebind, Database.rebind, Join.rebind, Function.comp_def]
  | mapping m =>
    simp [operations, Body.rebind, Mapping.rebind, List.flatMap_map, List.map_flatMap,
      slotOperations_rebind]
  | _ => rfl

end Graph

theorem Class.findProperty_rebind (f : Rebinding) (c : Class) (name : String) :
    (c.rebind f).findProperty name = (c.findProperty name).map (Property.rebind f) := by
  rw [findProperty, findProperty, rebind, List.find?_map]
  rfl

namespace Association

variable (f : Rebinding) (a : Association) (name : String)

theorem findProperty_rebind :
    (a.rebind f).findProperty name = (a.findProperty name).map (Property.rebind f) := by
  rw [findProperty, findProperty, rebind, List.find?_map]
  rfl

theorem opposite_rebind :
    (a.rebind f).opposite name = (a.opposite name).map (Property.rebind f) := by
  rw [opposite, opposite, rebind]
  have hname : ∀ p : Property, (p.rebind f).name = p.name := fun _ => rfl
  rcases a.properties with _ | ⟨p, _ | ⟨q, _ | ⟨_, rest⟩⟩⟩
  · rfl
  · rfl
  · simp only [List.map_cons, List.map_nil, hname]
    split
    · rfl
    · split <;> rfl
  · rfl

end Association
end ModelGraph
