import ModelGraph.Proofs.StoreDocuments
import ModelGraph.Registry

namespace ModelGraph

open Record Json

theorem SourceValue.respells (names : Naming) :
    Respells SourceValue.ofJson? (SourceValue.toJson names)
      (SourceValue.rebind (repath names)) := by
  intro j v h
  obtain ⟨⟨tag, document⟩, -, h⟩ := bind_eq_some.mp h
  simp only at h
  split at h
  · simp only [bind_eq_some, pure_eq_some] at h
    obtain ⟨r, -, value, -, rfl⟩ := h
    simp [toJson, rebind, ofJson?, tagged?_tagged, ofJson?_toJson]
  · simp only [bind_eq_some, pure_eq_some, required_eq] at h
    obtain ⟨r, -, value, hv, rfl⟩ := h
    obtain ⟨i, -, hv⟩ := Option.bind_eq_some_iff.mp hv
    obtain ⟨rfl, -⟩ := intBetween?_eq_some.mp hv
    simp [toJson, rebind, ofJson?, tagged?_tagged, ofJson?_toJson, hv]
  · simp only [bind_eq_some, pure_eq_some] at h
    obtain ⟨r, -, enumeration, he, value, -, rfl⟩ := h
    have he := (Reference.respells names).of_lookup he
    simp [toJson, rebind, ofJson?, tagged?_tagged, ofJson?_toJson, he]
  · cases h

theorem EnumValueMapping.respells (names : Naming) :
    Respells EnumValueMapping.ofJson? (EnumValueMapping.toJson names)
      fun v => { v with sources := v.sources.map (·.rebind (repath names)) } := by
  intro j m h
  simp only [EnumValueMapping.ofJson?, bind_eq_some, pure_eq_some, list_eq] at h
  obtain ⟨r, -, enumValue, -, sources, hs, rfl⟩ := h
  have hs := (SourceValue.respells names).of_list hs
  simp [toJson, ofJson?, ofJson?_toJson, hs]

@[simp]
theorem MappingId.written_ofOption (id : Option String) (path : Path) :
    (ofOption id path).written = id := by
  cases id <;> rfl

/-- The id as it is found under a path: it stays where it is written, and is formed anew else. -/
def MappingId.renewed (id : MappingId) (path : Path) : MappingId := ofOption id.written path

def EnumerationMapping.renewed (m : EnumerationMapping) : EnumerationMapping :=
  { m with id := m.id.renewed m.enumeration.path }

theorem EnumerationMapping.respells (names : Naming) :
    Respells EnumerationMapping.ofJson? (EnumerationMapping.toJson names)
      fun m => (m.rebind (repath names)).renewed := by
  intro j m h
  simp only [EnumerationMapping.ofJson?, bind_eq_some, pure_eq_some, list_eq, optText_eq] at h
  obtain ⟨r, -, id, hi, enumeration, he, values, hv, rfl⟩ := h
  have hi := text_rereads.of_optional (fun _ => rfl) hi
  have he := (Reference.respells names).of_lookup he
  have hv := (EnumValueMapping.respells names).of_list hv
  simp [toJson, ofJson?, ofJson?_toJson, hi, he, hv, rebind, renewed, MappingId.renewed, repath]

theorem EnumerationMapping.renewed_of_read {j : Json} {m : EnumerationMapping}
    (h : ofJson? j = some m) : m.renewed = m := by
  simp only [ofJson?, bind_eq_some, pure_eq_some] at h
  obtain ⟨r, -, id, -, enumeration, -, values, -, rfl⟩ := h
  simp [renewed, MappingId.renewed]

theorem MappingDocument.include_respells (names : Naming) :
    Respells MappingDocument.includeOfJson? (MappingDocument.includeJson names)
      (repath names .mapping) := by
  intro j i h
  simp only [includeOfJson?, bind_eq_some] at h
  obtain ⟨r, -, tag, -, hi⟩ := h
  have hi := (Reference.respells names).of_lookup hi
  simp [includeJson, includeOfJson?, tagged_eq, ofJson?_toJson, hi]

namespace AggregationSpecification

def valueJson (v : AggregateValue) : Json :=
  Record.toJson (.field "mapFn" v.map ++ .field "aggregateFn" v.aggregate)

theorem value_rereads : Rereads valueOfJson? valueJson := by
  intro j v h
  simp only [valueOfJson?, bind_eq_some, pure_eq_some] at h
  obtain ⟨r, -, map, -, aggregate, -, rfl⟩ := h
  simp [valueJson, valueOfJson?, ofJson?_toJson]

theorem toJson_eq (s : AggregationSpecification) :
    s.toJson = Record.toJson (.field "canAggregate" (.bool s.canAggregate) ++
      .listField "groupByFunctions" s.groupBy ++
      .listField "aggregateValues" (s.values.map valueJson)) :=
  rfl

theorem rereads : Rereads AggregationSpecification.ofJson? AggregationSpecification.toJson := by
  intro j s h
  simp only [AggregationSpecification.ofJson?, bind_eq_some, pure_eq_some, list_eq] at h
  obtain ⟨r, -, canAggregate, -, groupBy, hg, values, hv, rfl⟩ := h
  have hg := json_rereads.of_list hg
  have hv := value_rereads.of_list hv
  rw [List.map_id'] at hg
  simp [toJson_eq, ofJson?, ofJson?_toJson, hg, hv]

end AggregationSpecification

namespace PropertyMappingDocument

theorem pointer_respells (names : Naming) :
    Respells pointer? (fun p => pointerJson names p.1 p.2) fun p => (repath names _ p.1, p.2) := by
  intro j p h
  simp only [pointer?, bind_eq_some, pure_eq_some] at h
  obtain ⟨r, -, owner, ho, property, -, rfl⟩ := h
  have ho := (Reference.respells names).of_lookup ho
  simp [pointerJson, pointer?, ofJson?_toJson, ho]

def head (names : Naming) (owner : Reference .classOrAssociation) (property : String)
    (source : Option String) : Record :=
  .field "property" (pointerJson names owner property) ++ .optField "source" (source.map .str)

/-- The members of a property mapping that has no set implementation within it. -/
def plainHead (names : Naming) (p : PropertyMapping) : Record :=
  head names p.owner p.property p.source ++
    (.optField "target" (p.target.map .str) ++
      .optField "enumMappingId" (p.enumerationMapping.map .str))

mutual

def toJson (names : Naming) : PropertyMappingDocument → Json
  | .plain p =>
    match p.kind with
    | .pure transform explode =>
      Record.tagged "purePropertyMapping" (plainHead names p ++ .field "transform" transform ++
        .optField "explodeProperty" (explode.map .bool))
    | .relational operation =>
      Record.tagged "relationalPropertyMapping" (plainHead names p ++
        .field "relationalOperation" (operation.toJson names))
    | .embedded _ => .null
  | .embedded owner property source id target root properties =>
    Record.tagged "embeddedPropertyMapping" (head names owner property source ++
      .field "id" (.str id) ++ .field "class" (target.toJson names) ++ .field "root" (.bool root) ++
      .listField "propertyMappings" (toJsons names properties))

def toJsons (names : Naming) : List PropertyMappingDocument → List Json
  | [] => []
  | d :: rest => d.toJson names :: toJsons names rest

end

theorem toJsons_eq (names : Naming) (ds : List PropertyMappingDocument) :
    toJsons names ds = ds.map (toJson names) := by
  induction ds with
  | nil => rfl
  | cons d ds ih => rw [toJsons, ih, List.map_cons]

mutual

def rebind (f : Rebinding) : PropertyMappingDocument → PropertyMappingDocument
  | .plain p => .plain (p.rebind f)
  | .embedded owner property source id target root properties =>
    .embedded (f _ owner) property source id (f _ target) root (rebindAll f properties)

def rebindAll (f : Rebinding) : List PropertyMappingDocument → List PropertyMappingDocument
  | [] => []
  | d :: rest => d.rebind f :: rebindAll f rest

end

theorem rebindAll_eq (f : Rebinding) (ds : List PropertyMappingDocument) :
    rebindAll f ds = ds.map (rebind f) := by
  induction ds with
  | nil => rfl
  | cons d ds ih => rw [rebindAll, ih, List.map_cons]

mutual

theorem rebind_path (d : PropertyMappingDocument) : d.rebind (repath Link.path) = d := by
  cases d with
  | plain p => simp [rebind]
  | embedded owner property source id target root properties =>
    simp [rebind, rebindAll_path properties]

theorem rebindAll_path (ds : List PropertyMappingDocument) :
    rebindAll (repath Link.path) ds = ds := by
  cases ds with
  | nil => rfl
  | cons d ds => rw [rebindAll, rebind_path d, rebindAll_path ds]

end

theorem bool_rereads : Rereads bool? Json.bool := by
  intro j b h
  rfl

theorem read_toJson {names : Naming} {fuel : Nat} {j : Json} {d : PropertyMappingDocument}
    (h : read fuel j = some d) {more : Nat} (hm : (d.toJson names).depth < more) :
    read more (d.toJson names) = some (d.rebind (repath names)) := by
  induction fuel generalizing j d more with
  | zero => cases h
  | succ fuel ih =>
    cases more with
    | zero => exact absurd hm (Nat.not_lt_zero _)
    | succ more =>
      obtain ⟨⟨tag, document⟩, -, h⟩ := bind_eq_some.mp h
      simp only at h
      split at h
      · simp only [bind_eq_some, pure_eq_some, optText_eq, optional_eq] at h
        obtain ⟨r, -, ⟨owner, property⟩, hp, source, hs, target, ht, enum, he, transform, -, explode,
          hx, rfl⟩ := h
        have hp := (pointer_respells names).of_lookup hp
        have hs := text_rereads.of_optional (fun _ => rfl) hs
        have ht := text_rereads.of_optional (fun _ => rfl) ht
        have he := text_rereads.of_optional (fun _ => rfl) he
        have hx := bool_rereads.of_optional (fun _ => rfl) hx
        simp [toJson, rebind, PropertyMapping.rebind, plainHead, head, read, tagged?_tagged, tags, ofJson?_toJson, hp, hs, ht, he,
          hx]
      · simp only [bind_eq_some, pure_eq_some, optText_eq] at h
        obtain ⟨r, -, ⟨owner, property⟩, hp, source, hs, target, ht, enum, he, operation, ho, rfl⟩ :=
          h
        have hp := (pointer_respells names).of_lookup hp
        have hs := text_rereads.of_optional (fun _ => rfl) hs
        have ht := text_rereads.of_optional (fun _ => rfl) ht
        have he := text_rereads.of_optional (fun _ => rfl) he
        have ho := (RelationalOperation.respells names true).of_lookup ho
        simp [toJson, rebind, PropertyMapping.rebind, plainHead, head, read, tagged?_tagged, tags, ofJson?_toJson, hp, hs, ht, he,
          ho]
      · simp only [bind_eq_some, pure_eq_some, optText_eq, list_eq] at h
        obtain ⟨r, -, ⟨owner, property⟩, hp, source, hs, id, -, target, ht, root, -, properties, hps,
          rfl⟩ := h
        have hp := (pointer_respells names).of_lookup hp
        have hs := text_rereads.of_optional (fun _ => rfl) hs
        have ht := (Reference.respells names).of_lookup ht
        have hps : readDefault [] (list? (read more))
            (listed (properties.map (toJson names))) = some (properties.map (rebind (repath names))) := by
          apply respell_listed
          intro d hd
          obtain ⟨i, hi⟩ := mem_of_list hps d hd
          apply ih hi
          rw [toJson, toJsons_eq, tagged_eq] at hm
          apply Nat.lt_of_succ_lt_succ (Nat.lt_trans _ hm)
          apply depth_lt_of_listed "propertyMappings" _
            (List.mem_map_of_mem (f := toJson names) hd)
          simp [head]
        simp [toJson, toJsons_eq, rebind, rebindAll_eq, head, read, tagged?_tagged, tags, ofJson?_toJson, hp, hs, ht, hps]
      · cases h

theorem respells (names : Naming) :
    Respells PropertyMappingDocument.ofJson? (toJson names) (rebind (repath names)) := by
  intro j d h
  exact read_toJson h (Nat.lt_succ_self _)

end PropertyMappingDocument

namespace ClassMappingHeader

/-- The header as it is written, the id only where it is explicit. -/
def written (names : Naming) (h : ClassMappingHeader) : Record :=
  .optField "id" (h.id.map .str) ++ .field "class" (h.target.toJson names) ++
    .field "root" (.bool h.root)

def ofFound? (id target root : Option Json) : Option ClassMappingHeader := do
  return {
    id := ← readOptional text? id
    target := ← target.bind Reference.ofJson?
    root := ← readDefault false bool? root }

@[simp]
theorem ofRecord?_eq {r : Record} :
    ofRecord? r = ofFound? (r.lookup "id") (r.lookup "class") (r.lookup "root") := by
  simp [ofRecord?, ofFound?]

@[simp]
theorem lookup_written {names : Naming} {h : ClassMappingHeader} {key : String} :
    (sortMembers (h.written names)).lookup key =
      (if key = "root" then some (.bool h.root) else none).or
        ((if key = "class" then some (h.target.toJson names) else none).or
          (if key = "id" then h.id.map .str else none)) := by
  simp [written, Option.or_assoc]

@[simp]
theorem within_written {names : Naming} {h : ClassMappingHeader} {p : String → Prop}
    (hi : p "id") (hc : p "class") (hr : p "root") : Within p (h.written names) := by
  simp [written, hi, hc, hr]

def rebind (f : Rebinding) (h : ClassMappingHeader) : ClassMappingHeader :=
  { h with target := f _ h.target }

theorem respells (names : Naming) {i c r : Option Json} {h : ClassMappingHeader}
    (hh : ofFound? i c r = some h) :
    ofFound? (h.id.map .str) (some (h.target.toJson names)) (some (.bool h.root)) =
      some (h.rebind (repath names)) := by
  simp only [ofFound?, bind_eq_some, pure_eq_some] at hh
  obtain ⟨id, hi, target, ht, root, -, rfl⟩ := hh
  have hi := text_rereads.of_optional (fun _ => rfl) hi
  have ht := (Reference.respells names).of_lookup ht
  simp [ofFound?, rebind, hi, ht]

theorem ofJson?_obj (members : Record) :
    ofJson? (.obj members) =
      ofFound? (members.lookup "id") (members.lookup "class") (members.lookup "root") := by
  simp [ofJson?, ofFound?]

theorem ofFound?_of_ofJson? {j : Json} {h : ClassMappingHeader} (hh : ofJson? j = some h) :
    ∃ i c r, ofFound? i c r = some h := by
  cases j with
  | obj members =>
    rw [ofJson?_obj] at hh
    exact ⟨_, _, _, hh⟩
  | _ =>
    obtain ⟨r, -, hh⟩ := bind_eq_some.mp hh
    change ofRecord? r = some h at hh
    rw [ofRecord?_eq] at hh
    exact ⟨_, _, _, hh⟩

theorem record_implementation (names : Naming) (h : ClassMappingHeader)
    (kind : SetImplementationKind) : record names (h.implementation kind) = h.written names := by
  simp [record, implementation, written]

end ClassMappingHeader

namespace ClassMappingDocument

mutual

def toJson (names : Naming) : ClassMappingDocument → Json
  | .pureInstance header source filter properties =>
    Record.tagged "pureInstance" (header.written names ++
      .optField "srcClass" (source.map (·.toJson names)) ++ .optField "filter" filter ++
      .listField "propertyMappings" (properties.map (·.toJson names)))
  | .relational header distinct table key properties =>
    Record.tagged "relational" (header.written names ++ .field "distinct" (.bool distinct) ++
      .optField "mainTable" (table.map (·.toJson names)) ++
      .listField "primaryKey" (key.map (·.toJson names)) ++
      .listField "propertyMappings" (properties.map (·.toJson names)))
  | .aggregationAware header main aggregates properties =>
    Record.tagged "aggregationAware" (header.written names ++
      .field "mainSetImplementation" (main.toJson names) ++
      .listField "aggregateSetImplementations" (aggregateJsons names aggregates) ++
      .listField "propertyMappings" (properties.map (·.toJson names)))
  | .operation header name parameters =>
    Record.tagged "operation" (header.written names ++ .field "operation" (.str name) ++
      .listField "parameters" (parameters.map .str))

def aggregateJsons (names : Naming) :
    List (Nat × AggregationSpecification × ClassMappingDocument) → List Json
  | [] => []
  | (index, specification, d) :: rest =>
    Record.toJson (.field "index" (.ofNat index) ++
      .field "aggregateSpecification" specification.toJson ++
      .field "setImplementation" (d.toJson names)) :: aggregateJsons names rest

end

def aggregateJson (names : Naming) (a : Nat × AggregationSpecification × ClassMappingDocument) :
    Json :=
  Record.toJson (.field "index" (.ofNat a.1) ++
    .field "aggregateSpecification" a.2.1.toJson ++ .field "setImplementation" (a.2.2.toJson names))

theorem aggregateJsons_eq (names : Naming)
    (as : List (Nat × AggregationSpecification × ClassMappingDocument)) :
    aggregateJsons names as = as.map (aggregateJson names) := by
  induction as with
  | nil => rfl
  | cons a as ih =>
    obtain ⟨index, specification, d⟩ := a
    rw [aggregateJsons, ih]
    rfl

mutual

def rebind (f : Rebinding) : ClassMappingDocument → ClassMappingDocument
  | .pureInstance header source filter properties =>
    .pureInstance (header.rebind f) (source.map (f _)) filter (properties.map (·.rebind f))
  | .relational header distinct table key properties =>
    .relational (header.rebind f) distinct (table.map (·.rebind f)) (key.map (·.rebind f))
      (properties.map (·.rebind f))
  | .aggregationAware header main aggregates properties =>
    .aggregationAware (header.rebind f) (main.rebind f) (rebindAggregates f aggregates)
      (properties.map (·.rebind f))
  | .operation header name parameters => .operation (header.rebind f) name parameters

def rebindAggregates (f : Rebinding) :
    List (Nat × AggregationSpecification × ClassMappingDocument) →
      List (Nat × AggregationSpecification × ClassMappingDocument)
  | [] => []
  | (index, specification, d) :: rest =>
    (index, specification, d.rebind f) :: rebindAggregates f rest

end

theorem rebindAggregates_eq (f : Rebinding)
    (as : List (Nat × AggregationSpecification × ClassMappingDocument)) :
    rebindAggregates f as = as.map fun a => (a.1, a.2.1, a.2.2.rebind f) := by
  induction as with
  | nil => rfl
  | cons a as ih =>
    obtain ⟨index, specification, d⟩ := a
    rw [rebindAggregates, ih]
    rfl

mutual

theorem rebind_path (d : ClassMappingDocument) : d.rebind (repath Link.path) = d := by
  cases d with
  | pureInstance header source filter properties =>
    simp [rebind, ClassMappingHeader.rebind, PropertyMappingDocument.rebind_path]
  | relational header distinct table key properties =>
    simp [rebind, ClassMappingHeader.rebind, PropertyMappingDocument.rebind_path]
  | aggregationAware header main aggregates properties =>
    simp [rebind, ClassMappingHeader.rebind, PropertyMappingDocument.rebind_path, rebind_path main,
      rebindAggregates_path aggregates]
  | operation header name parameters => simp [rebind, ClassMappingHeader.rebind]

theorem rebindAggregates_path
    (as : List (Nat × AggregationSpecification × ClassMappingDocument)) :
    rebindAggregates (repath Link.path) as = as := by
  cases as with
  | nil => rfl
  | cons a as =>
    obtain ⟨index, specification, d⟩ := a
    rw [rebindAggregates, rebind_path d, rebindAggregates_path as]

end

def readAggregate (fuel : Nat) (j : Json) :
    Option (Nat × AggregationSpecification × ClassMappingDocument) := do
  let r ← Record.ofJson? ["index", "aggregateSpecification", "setImplementation"] j
  return (← r.required "index" Json.nat32?,
    ← r.required "aggregateSpecification" AggregationSpecification.ofJson?,
    ← r.required "setImplementation" (read fuel true))

def readAggregation (fuel : Nat) (j : Json) : Option ClassMappingDocument := do
  let r ← Record.ofJson?
    ["id", "class", "root", "mainSetImplementation", "aggregateSetImplementations",
      "propertyMappings"] j
  return .aggregationAware (← ClassMappingHeader.ofRecord? r)
    (← r.required "mainSetImplementation" (read fuel true))
    (← r.list "aggregateSetImplementations" (readAggregate fuel))
    (← r.list "propertyMappings" PropertyMappingDocument.ofJson?)

theorem read_of_aggregation {fuel : Nat} {nested : Bool} {j document : Json}
    (h : tagged? types nested j = some ("aggregationAware", document)) :
    read (fuel + 1) nested j = readAggregation fuel document := by
  rw [read, h]
  rfl

theorem readAggregate_aggregateJson {names : Naming} {fuel more : Nat} {j : Json}
    {a : Nat × AggregationSpecification × ClassMappingDocument}
    (hread : ∀ {j d}, read fuel true j = some d → (d.toJson names).depth < more →
      read more true (d.toJson names) = some (d.rebind (repath names)))
    (h : readAggregate fuel j = some a) (hm : (aggregateJson names a).depth < more) :
    readAggregate more (aggregateJson names a) =
      some (a.1, a.2.1, a.2.2.rebind (repath names)) := by
  simp only [readAggregate, bind_eq_some, pure_eq_some] at h
  obtain ⟨r, -, index, hi, specification, hs, d, hd, rfl⟩ := h
  have hi := nat32_rereads.of_lookup hi
  have hs := AggregationSpecification.rereads.of_lookup hs
  have hd : read more true (d.toJson names) = some (d.rebind (repath names)) := by
    obtain ⟨i, -, hd⟩ := Option.bind_eq_some_iff.mp hd
    apply hread hd
    apply Nat.lt_trans _ hm
    apply depth_lt_of_lookup "setImplementation"
    simp
  simp [aggregateJson, readAggregate, ofJson?_toJson, hi, hs, hd]

theorem readOptional_filter {o f : Option Json} (h : readOptional some o = some f) :
    readOptional some f = some f := by
  cases f with
  | none => rfl
  | some j =>
    cases o with
    | none => cases h
    | some i =>
      rw [readOptional] at h
      split at h
      · cases h
      · next hn =>
        cases h
        exact readOptional_some (by simpa using hn) rfl

theorem read_toJson {names : Naming} {fuel : Nat} {nested : Bool} {j : Json}
    {d : ClassMappingDocument} (h : read fuel nested j = some d) {more : Nat}
    (hm : (d.toJson names).depth < more) (within : Bool) :
    read more within (d.toJson names) = some (d.rebind (repath names)) := by
  induction fuel generalizing nested j d more within with
  | zero => cases h
  | succ fuel ih =>
    cases more with
    | zero => exact absurd hm (Nat.not_lt_zero _)
    | succ more =>
      obtain ⟨⟨tag, document⟩, -, h⟩ := bind_eq_some.mp h
      simp only at h
      split at h
      · simp only [bind_eq_some, pure_eq_some, optional_eq, list_eq,
          ClassMappingHeader.ofRecord?_eq] at h
        obtain ⟨r, -, header, hh, source, hs, filter, hf, properties, hp, rfl⟩ := h
        have hh := ClassMappingHeader.respells names hh
        have hs := (Reference.respells names).of_optional (fun _ => rfl) hs
        have hf := readOptional_filter hf
        have hp := (PropertyMappingDocument.respells names).of_list hp
        simp [toJson, rebind, read, tagged?_tagged, types, ofJson?_toJson, hh, hs, hf, hp]
      · simp only [bind_eq_some, pure_eq_some, flag_eq, optional_eq, list_eq,
          ClassMappingHeader.ofRecord?_eq] at h
        obtain ⟨r, -, header, hh, distinct, -, table, ht, key, hk, properties, hp, rfl⟩ := h
        have hh := ClassMappingHeader.respells names hh
        have ht := (TablePointer.respells names).of_optional (fun _ => rfl) ht
        have hk := (RelationalOperation.respells names true).of_list hk
        have hp := (PropertyMappingDocument.respells names).of_list hp
        simp [toJson, rebind, read, tagged?_tagged, types, ofJson?_toJson, hh, ht, hk, hp]
      · change readAggregation fuel document = some d at h
        simp only [readAggregation, bind_eq_some, pure_eq_some, required_eq, list_eq,
          ClassMappingHeader.ofRecord?_eq] at h
        obtain ⟨r, -, header, hh, main, hmain, aggregates, ha, properties, hp, rfl⟩ := h
        have hh := ClassMappingHeader.respells names hh
        have hp := (PropertyMappingDocument.respells names).of_list hp
        rw [toJson, aggregateJsons_eq, tagged_eq] at hm
        have hmain : read more true (main.toJson names) = some (main.rebind (repath names)) := by
          obtain ⟨i, -, hi⟩ := Option.bind_eq_some_iff.mp hmain
          apply ih hi
          apply Nat.lt_of_lt_of_le _ (Nat.le_of_lt_succ hm)
          apply depth_lt_of_lookup "mainSetImplementation"
          simp
        have ha : readDefault [] (list? (readAggregate more))
            (listed (aggregates.map (aggregateJson names))) =
              some (aggregates.map fun a => (a.1, a.2.1, a.2.2.rebind (repath names))) := by
          apply respell_listed
          intro a hmem
          have hd : (aggregateJson names a).depth + 1 < more + 1 := by
            apply Nat.lt_trans _ hm
            apply depth_lt_of_listed "aggregateSetImplementations" _
              (List.mem_map_of_mem (f := aggregateJson names) hmem)
            simp
          obtain ⟨i, hi⟩ := mem_of_list ha a hmem
          exact readAggregate_aggregateJson
            (fun h hm => ih h hm true) hi (Nat.lt_of_succ_lt_succ hd)
        rw [toJson, aggregateJsons_eq,
          read_of_aggregation (tagged?_tagged (by simp [types]) (by simp))]
        simp [readAggregation, ofJson?_toJson, rebind, rebindAggregates_eq, hh, hmain, ha, hp]
      · simp only [bind_eq_some, pure_eq_some, texts_eq, ClassMappingHeader.ofRecord?_eq] at h
        obtain ⟨r, -, header, hh, name, -, parameters, hp, rfl⟩ := h
        have hh := ClassMappingHeader.respells names hh
        have hp := text_rereads.of_list hp
        simp [toJson, rebind, read, tagged?_tagged, types, ofJson?_toJson, hh, hp]
      · cases h

theorem respells (names : Naming) :
    Respells ClassMappingDocument.ofJson? (toJson names) (rebind (repath names)) := by
  intro j d h
  exact read_toJson h (Nat.lt_succ_self _) false

end ClassMappingDocument

end ModelGraph
