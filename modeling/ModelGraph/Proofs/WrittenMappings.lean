import Mathlib.Data.List.Forall2
import ModelGraph.Build.Entry
import ModelGraph.Proofs.ExtensionDocuments
import ModelGraph.Proofs.Interning
import ModelGraph.Proofs.Spelling

namespace ModelGraph

open Record Json

/-- An object document whose members are none of those in the header of an entity. -/
def IsDocument (j : Json) : Prop :=
  ∃ r : Record, j = r.toJson ∧ Within (· ∉ Entity.headerMembers) r

namespace ClassMappingDocument

theorem intern_kind {d : ClassMappingDocument} {m m' : Mapping} {s : SetImplementation}
    (h : d.intern m = .ok (s, m')) (e : ClassMappingExtension) : s.kind ≠ .extension e := by
  cases d with
  | pureInstance header source filter properties =>
    rw [intern] at h
    cases h
    intro he
    cases he
  | relational header distinct table key properties =>
    rw [intern] at h
    cases h
    intro he
    cases he
  | aggregationAware header main aggregates properties =>
    rw [intern] at h
    split at h
    · cases h
    split at h
    · cases h
    · cases h
      intro he
      cases he
  | operation header name parameters =>
    rw [intern] at h
    split at h
    · cases h
    · cases h
      intro he
      cases he

theorem type_tagged {tag : String} {r : Record} (h : (sortMembers r).lookup "_type" = none) :
    ((tagged tag r).member? "_type").bind text? = some tag := by
  simp [tagged_eq, Record.toJson, object, member?, h]

theorem type_toJson (names : Naming) (d : ClassMappingDocument) :
    ∃ type ∈ types, ((d.toJson names).member? "_type").bind text? = some type := by
  cases d with
  | pureInstance header source filter properties =>
    exact ⟨"pureInstance", by simp [types], by rw [toJson, type_tagged (by simp)]⟩
  | relational header distinct table key properties =>
    exact ⟨"relational", by simp [types], by rw [toJson, type_tagged (by simp)]⟩
  | aggregationAware header main aggregates properties =>
    exact ⟨"aggregationAware", by simp [types], by rw [toJson, type_tagged (by simp)]⟩
  | operation header name parameters =>
    exact ⟨"operation", by simp [types], by rw [toJson, type_tagged (by simp)]⟩

end ClassMappingDocument

namespace ClassMappingExtension

def servicesRecord (names : Naming) (h : ClassMappingHeader) (pointers : List ServicePointer) : Record :=
  listField "servicesMapping" (pointers.map (ServicePointer.toJson names)) ++
    (field "_type" (.str servicesType) ++ h.written names)

def headerMembers : List String := ["_type", "id", "class", "root"]

theorem without_servicesRecord (names : Naming) (h : ClassMappingHeader)
    (pointers : List ServicePointer) :
    (servicesRecord names h pointers).toJson.without ["_type", "id", "class", "root"] =
      servicesToJson names pointers := by
  have hfilter : (servicesRecord names h pointers).filter
      (fun m => !headerMembers.contains m.1) =
        listField "servicesMapping" (pointers.map (ServicePointer.toJson names)) := by
    have hheader : (h.written names).filter
        (fun m => !headerMembers.contains m.1) = [] := by
      cases hi : h.id <;> simp [ClassMappingHeader.written, hi, optField, field, headerMembers]
    have hlist : (listField "servicesMapping" (pointers.map (ServicePointer.toJson names))).filter
        (fun m => !headerMembers.contains m.1) =
          listField "servicesMapping" (pointers.map (ServicePointer.toJson names)) := by
      cases pointers <;> simp [listField, headerMembers]
    rw [servicesRecord, List.filter_append, List.filter_append, hheader, hlist]
    simp [field, headerMembers]
  change Json.obj ((sortMembers (servicesRecord names h pointers)).filter
    fun m => !headerMembers.contains m.1) = _
  rw [filter_sortMembers fun k => !headerMembers.contains k, hfilter]
  rfl

end ClassMappingExtension

namespace Entry

open ModelGraph.Graph Mapping

variable {ps : List Preset} {r : Registry}

theorem require_eq_ok {α : Type} {path : Path} {o : Option α} {a : α} :
    require path o = .ok a ↔ o = some a := by
  cases o <;> simp [require]

variable {names : Naming}

theorem classMappingJson_bare {path : Path} {m : Mapping} {index : Nat} {s : SetImplementation}
    {j : Json} (hs : m.slots[index]? = some s) (hk : ∀ e, s.kind ≠ .extension e)
    (hj : m.classMappingJson names (m.slots.length + 1) index = .ok j) :
    (bare r).classMappingJson path (m.spelled names) index = .ok j := by
  have hlength : (m.spelled names).slots.length = m.slots.length := by
    rw [slots_spelled, List.length_map]
  rw [Graph.classMappingJson, slot_spelled, slot_eq_ok hs, referencePath_bare]
  simp only [Except.map, mapError_ok, ok_bind, hlength, Mapping.classMappingJson_spelled, hj]
  simp only [SetImplementation.spelled]
  cases h : s.kind with
  | extension e => exact absurd h (hk e)
  | _ => rfl

theorem classMappingJson_services {path : Path} {m : Mapping} {index : Nat}
    {header : ClassMappingHeader} {pointers : List ServicePointer}
    (hk : r.mapping? ClassMappingExtension.servicesType = some Preset.serviceMappingKind)
    (hs : m.slots[index]? = some (header.implementation (.extension (.services pointers)))) :
    (bare r).classMappingJson path (m.spelled names) index =
      .ok (ClassMappingExtension.servicesRecord names header pointers).toJson := by
  have hw : Preset.serviceMappingKind.write Link.path
      (ClassMappingExtension.rebind (spell names) (.services pointers)) =
        .ok (.obj (sortMembers (listField "servicesMapping"
          (pointers.map (ServicePointer.toJson names))))) := by
    simp [Preset.serviceMappingKind, ClassMappingExtension.rebind,
      ClassMappingExtension.servicesToJson, ServicePointer.toJson, Function.comp_def]
    rfl
  rw [Graph.classMappingJson, slot_spelled, slot_eq_ok hs, referencePath_bare]
  simp only [Except.map, mapError_ok, ok_bind, record_spelled,
    ClassMappingHeader.record_implementation, registry_bare]
  have htype : (ClassMappingExtension.rebind (spell names) (.services pointers)).type =
      ClassMappingExtension.servicesType := rfl
  simp only [SetImplementation.spelled, SetImplementationKind.spelled,
    ClassMappingHeader.implementation, htype, hk, hw, mapError_ok, ok_bind]
  rw [ClassMappingExtension.servicesRecord, Record.toJson, object, object, List.append_assoc,
    sortMembers_sorted_append]
  rfl

theorem classMapping_services {path : Path} {m : Mapping} {i c f : Option Json}
    {header : ClassMappingHeader} {pointers : List ServicePointer} {e : ClassMappingExtension}
    (hk : r.mapping? ClassMappingExtension.servicesType = some Preset.serviceMappingKind)
    (hh : ClassMappingHeader.ofFound? i c f = some header)
    (hc : ClassMappingExtension.servicesOfJson?
      (ClassMappingExtension.servicesToJson names pointers) = some e) :
    classMapping r path (ClassMappingExtension.servicesRecord names header pointers).toJson m =
      .ok ((header.rebind (repath names)).implementation (.extension e), m) := by
  have ht : (((ClassMappingExtension.servicesRecord names header pointers).toJson.member?
      "_type").bind text?) = some ClassMappingExtension.servicesType := by
    simp [ClassMappingExtension.servicesRecord, Record.toJson, object, member?]
  have hheader : ClassMappingHeader.ofJson?
      (ClassMappingExtension.servicesRecord names header pointers).toJson =
        some (header.rebind (repath names)) := by
    rw [Record.toJson, object, ClassMappingHeader.ofJson?_obj]
    simp [ClassMappingExtension.servicesRecord, ClassMappingHeader.respells names hh]
  have hn : ¬ClassMappingDocument.types.contains ClassMappingExtension.servicesType = true := by
    decide
  simp only [classMapping, ht, Option.getD_some]
  rw [if_neg hn]
  simp only [hk, hheader, require, ok_bind, ClassMappingExtension.without_servicesRecord]
  change (do
    let content ← require path (ClassMappingExtension.servicesOfJson?
      (ClassMappingExtension.servicesToJson names pointers))
    return ((header.rebind (repath names)).implementation (.extension content), m)) = _
  rw [hc]
  rfl

/-- The document as which the class mapping is written that is read of another document. -/
inductive WritesClassMapping (names : Naming) (j : Json) : Json → Prop
  | core {d : ClassMappingDocument} (h : ClassMappingDocument.ofJson? j = some d) :
    WritesClassMapping names j (d.toJson names)
  | services {header : ClassMappingHeader} {pointers : List ServicePointer}
    (htype : (j.member? "_type").bind text? = some ClassMappingExtension.servicesType)
    (hh : ClassMappingHeader.ofJson? j = some header)
    (hp : ClassMappingExtension.servicesOfJson? (j.without ClassMappingExtension.headerMembers) =
      some (.services pointers)) :
    WritesClassMapping names j (ClassMappingExtension.servicesRecord names header pointers).toJson

theorem classMapping_restated (hr : Preset.registry ps = .ok r) (names : Naming) {path : Path}
    {j : Json} {m m' : Mapping} {s : SetImplementation}
    (h : classMapping r path j m = .ok (s, m')) :
    ∃ document, WritesClassMapping names j document ∧ m.Extends m' ∧
      (∀ whole index q, m'.Begins whole → whole.slots[index]? = some s →
        (bare r).classMappingJson q (whole.spelled names) index = .ok document) ∧
      ∀ q, classMapping r q document (m.rebind (repath names)).renewed =
        .ok ((s.rebind (repath names)).renewed, (m'.rebind (repath names)).renewed) := by
  simp only [classMapping] at h
  by_cases ht : ClassMappingDocument.types.contains (((j.member? "_type").bind text?).getD "")
  · rw [if_pos ht] at h
    obtain ⟨d, hd, h⟩ := bind_eq_ok.mp h
    have hd := require_eq_ok.mp hd
    have hi := ok_of_mapError h
    have hgathers : d.Gathers names := ClassMappingDocument.gathers_of_read hd
    obtain ⟨he, hwrite⟩ := hgathers hi
    refine ⟨d.toJson names, .core hd, he, ?_, ?_⟩
    · intro whole index q hb hs
      exact classMappingJson_bare hs (ClassMappingDocument.intern_kind hi)
        (hwrite whole (whole.slots.length + 1) index hb hs (Nat.lt_succ_of_le hb.length_le))
    · intro q
      obtain ⟨type, hmem, htype⟩ := d.type_toJson names
      have hc : ClassMappingDocument.types.contains type = true :=
        List.contains_iff_mem.mpr hmem
      simp only [classMapping, htype, Option.getD_some, hc, if_true,
        ClassMappingDocument.respells names hd, require, ok_bind,
        ClassMappingDocument.intern_rebind (repath names) d hi]
      rfl
  · rw [if_neg ht] at h
    cases hk : r.mapping? (((j.member? "_type").bind text?).getD "") with
    | none =>
      rw [hk] at h
      cases h
    | some k =>
      rw [hk] at h
      obtain ⟨rfl, htype⟩ := Preset.mapping?_services hr hk
      obtain ⟨header, hh, h⟩ := bind_eq_ok.mp h
      obtain ⟨content, hc, h⟩ := bind_eq_ok.mp h
      have hh := require_eq_ok.mp hh
      have hc := require_eq_ok.mp hc
      obtain ⟨pointers, rfl, hagain⟩ := ClassMappingExtension.services_respells names hc
      cases h
      rw [htype] at hk
      have htag : (j.member? "_type").bind text? = some ClassMappingExtension.servicesType := by
        cases ht : (j.member? "_type").bind text? with
        | none =>
          rw [ht] at htype
          exact absurd htype (by decide)
        | some type =>
          rw [ht] at htype
          exact congrArg some htype
      refine ⟨(ClassMappingExtension.servicesRecord names header pointers).toJson,
        .services htag hh hc, Extends.refl m, ?_, ?_⟩
      · intro whole index q _ hs
        exact classMappingJson_services hk hs
      · intro q
        obtain ⟨i, c, f, hh⟩ := ClassMappingHeader.ofFound?_of_ofJson? hh
        rw [classMapping_services hk hh hagain, ← header.implementation_rebind]
        rfl

theorem addClassMappings_restated (hr : Preset.registry ps = .ok r) (names : Naming) {path : Path}
    {js : List Json} {m m' : Mapping} (h : addClassMappings r path js m = .ok m') :
    ∃ documents top more,
      m' = { m with slots := m.slots ++ more, top := m.top ++ top } ∧
      List.Forall₂ (WritesClassMapping names) js documents ∧
      (∀ whole q, m'.Begins whole →
        top.mapM ((bare r).classMappingJson q (whole.spelled names)) = .ok documents) ∧
      ∀ q, addClassMappings r q documents (m.rebind (repath names)).renewed =
        .ok (m'.rebind (repath names)).renewed := by
  induction js generalizing m with
  | nil =>
    cases h
    exact ⟨[], [], [], by simp, .nil, fun _ _ _ => rfl, fun _ => rfl⟩
  | cons j js ih =>
    obtain ⟨⟨s, inner⟩, hj, h⟩ := bind_eq_ok.mp h
    obtain ⟨document, hd, ⟨slots, rfl⟩, hwrite, hread⟩ := classMapping_restated hr names hj
    obtain ⟨documents, top, more, rfl, hds, hwrites, hreads⟩ := ih h
    refine ⟨document :: documents, (m.slots ++ slots).length :: top, slots ++ s :: more, ?_,
      .cons hd hds, ?_, ?_⟩
    · simp [addTop, addSlot]
    · intro whole q hb
      have hslot : (addSlot s { m with slots := m.slots ++ slots }).Begins whole := by
        apply Begins.trans _ hb
        exact ⟨more, by simp [addTop, addSlot]⟩
      have hhead := hwrite whole (m.slots ++ slots).length q
        ((extends_addSlot _ _).begins.trans hslot) hslot.slot
      rw [List.mapM_cons, hhead, ok_bind, hwrites whole q hb]
      rfl
    · intro q
      have hreads := hreads q
      rw [addTop_renewed_rebind] at hreads
      rw [addClassMappings, hread, ok_bind]
      exact hreads

def mappingRecord (names : Naming) (includes : List (Reference .mapping))
    (classMappings : List Json) (enumerationMappings : List EnumerationMapping) : Record :=
  .listField "includedMappings" (includes.map (MappingDocument.includeJson names)) ++
    .listField "classMappings" classMappings ++
    .listField "enumerationMappings" (enumerationMappings.map (EnumerationMapping.toJson names))

theorem mapping_written (hr : Preset.registry ps = .ok r) (names : Naming) {path : Path} {j : Json}
    {m : Mapping} (h : mapping r path j = .ok m) :
    ∃ (d : MappingDocument) (documents : List Json) (built : Mapping),
      MappingDocument.ofJson? j = some d ∧
      List.Forall₂ (WritesClassMapping names) d.classMappings documents ∧
      m = { built with enumerationMappings := d.enumerationMappings } ∧
      (∀ q, (bare r).mappingJson q (m.spelled names) =
        .ok (mappingRecord names d.includes documents d.enumerationMappings).toJson) ∧
      ∀ q, addClassMappings r q documents
          ({ includes := d.includes : Mapping }.rebind (repath names)).renewed =
        .ok (built.rebind (repath names)).renewed := by
  obtain ⟨d, hd, h⟩ := bind_eq_ok.mp h
  obtain ⟨built, hb, h⟩ := bind_eq_ok.mp h
  cases h
  obtain ⟨documents, top, more, rfl, hds, hwrites, hreads⟩ := addClassMappings_restated hr names hb
  refine ⟨d, documents, _, require_eq_ok.mp hd, hds, rfl, ?_, hreads⟩
  intro q
  rw [mappingJson, referencePath_bare]
  simp only [List.nil_append]
  have hw := hwrites ⟨d.includes, d.enumerationMappings, more, top⟩ q (List.prefix_refl _)
  have htop : (spelled names ⟨d.includes, d.enumerationMappings, more, top⟩).top = top := rfl
  rw [htop, hw, ok_bind, pure_eq_ok]
  simp [spelled, unwire, rebind, mappingRecord, Function.comp_def]

theorem mapping_restated (hr : Preset.registry ps = .ok r) (names : Naming) {path : Path} {j : Json}
    {m : Mapping} (h : mapping r path j = .ok m) :
    ∃ document, (∀ q, (bare r).mappingJson q (m.spelled names) = .ok document) ∧
      IsDocument document ∧
      ∀ q, mapping r q document = .ok (m.rebind (repath names)).renewed := by
  obtain ⟨d, documents, built, hd, -, rfl, hwrites, hreads⟩ := mapping_written hr names h
  simp only [MappingDocument.ofJson?, bind_eq_some, pure_eq_some, list_eq] at hd
  obtain ⟨t, -, includes, hi, classMappings, -, enumerationMappings, he, rfl⟩ := hd
  have hi := (MappingDocument.include_respells names).of_list hi
  have he := (EnumerationMapping.respells names).of_list he
  have hc : readDefault [] (list? some) (listed documents) = some documents := by
    have hw : ∀ j ∈ documents, (some : Json → Option Json) (id j) = some j := fun _ _ => rfl
    have hc := readDefault_listed hw
    rwa [List.map_id] at hc
  have hd : MappingDocument.ofJson?
      (mappingRecord names includes documents enumerationMappings).toJson =
        some ⟨includes.map (repath names _), documents,
          enumerationMappings.map fun m => (m.rebind (repath names)).renewed⟩ := by
    simp [mappingRecord, MappingDocument.ofJson?, ofJson?_toJson, hi, he, hc]
  refine ⟨(mappingRecord names includes documents enumerationMappings).toJson, hwrites,
    ⟨_, rfl, ?_⟩, ?_⟩
  · simp [mappingRecord, Entity.headerMembers]
  · intro q
    have hreads := hreads q
    simp only [rebind, renewed, List.map_nil] at hreads
    rw [mapping, hd]
    simp only [require, ok_bind, hreads]
    simp only [rebind, renewed, List.map_map]
    rfl

theorem renewed_of_classMapping {path : Path} {j : Json} {m m' : Mapping} {s : SetImplementation}
    (h : classMapping r path j m = .ok (s, m')) (hm : m.renewed = m) :
    s.renewed = s ∧ m'.renewed = m' := by
  simp only [classMapping] at h
  split at h
  · obtain ⟨d, -, h⟩ := bind_eq_ok.mp h
    have hi := ok_of_mapError h
    -- Rebound by what changes nothing, the document is interned as before.
    have hagain := ClassMappingDocument.intern_rebind (repath Link.path) d hi
    rw [d.rebind_path, m.rebind_path, hm, hi, SetImplementation.rebind_path, m'.rebind_path]
      at hagain
    obtain ⟨hs, hm'⟩ := Prod.mk.inj (Except.ok.inj hagain)
    exact ⟨hs.symm, hm'.symm⟩
  · split at h
    · cases h
    · obtain ⟨header, -, h⟩ := bind_eq_ok.mp h
      obtain ⟨content, -, h⟩ := bind_eq_ok.mp h
      cases h
      have hs := header.implementation_rebind (repath Link.path) (.extension content)
      rw [SetImplementation.rebind_path] at hs
      refine ⟨hs.symm.trans ?_, hm⟩
      simp [SetImplementation.rebindKind, ClassMappingHeader.rebind]

theorem renewed_of_addClassMappings {path : Path} {js : List Json} {m m' : Mapping}
    (h : addClassMappings r path js m = .ok m') (hm : m.renewed = m) : m'.renewed = m' := by
  induction js generalizing m with
  | nil =>
    cases h
    exact hm
  | cons j js ih =>
    obtain ⟨⟨s, inner⟩, hj, h⟩ := bind_eq_ok.mp h
    obtain ⟨hs, hinner⟩ := renewed_of_classMapping hj hm
    apply ih h
    have htop := addTop_renewed_rebind (repath Link.path) s inner
    rwa [SetImplementation.rebind_path, Mapping.rebind_path, Mapping.rebind_path, hs, hinner]
      at htop

theorem renewed_of_mapping {path : Path} {j : Json} {m : Mapping}
    (h : mapping r path j = .ok m) : m.renewed = m := by
  obtain ⟨d, hd, h⟩ := bind_eq_ok.mp h
  obtain ⟨built, hb, h⟩ := bind_eq_ok.mp h
  cases h
  have hd := require_eq_ok.mp hd
  simp only [MappingDocument.ofJson?, bind_eq_some, pure_eq_some, list_eq] at hd
  obtain ⟨t, -, includes, -, classMappings, -, enumerationMappings, he, rfl⟩ := hd
  have hslots := congrArg Mapping.slots (renewed_of_addClassMappings hb rfl)
  have hall := map_eq_of_list (fun _ _ h => EnumerationMapping.renewed_of_read h) he
  simp only [renewed] at hslots ⊢
  rw [hslots, hall]

end Entry

end ModelGraph
