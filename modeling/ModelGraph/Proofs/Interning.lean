import ModelGraph.Proofs.MappingDocuments

namespace ModelGraph

open Record Json

namespace Mapping

def Extends (m m' : Mapping) : Prop := ∃ more, m' = { m with slots := m.slots ++ more }

/-- The slots of the mapping are the first slots of another one. -/
def Begins (m m' : Mapping) : Prop := m.slots <+: m'.slots

theorem Extends.refl (m : Mapping) : m.Extends m := ⟨[], by simp⟩

theorem Extends.trans {m m' m'' : Mapping} (h : m.Extends m') (h' : m'.Extends m'') :
    m.Extends m'' := by
  obtain ⟨t, rfl⟩ := h
  obtain ⟨u, rfl⟩ := h'
  exact ⟨t ++ u, by simp⟩

theorem extends_addSlot (m : Mapping) (s : SetImplementation) : m.Extends (m.addSlot s) :=
  ⟨[s], rfl⟩

theorem Extends.begins {m m' : Mapping} (h : m.Extends m') : m.Begins m' := by
  obtain ⟨t, rfl⟩ := h
  exact List.prefix_append m.slots t

theorem Extends.length_le {m m' : Mapping} (h : m.Extends m') :
    m.slots.length ≤ m'.slots.length :=
  h.begins.length_le

theorem Begins.trans {m m' m'' : Mapping} (h : m.Begins m') (h' : m'.Begins m'') :
    m.Begins m'' :=
  List.IsPrefix.trans h h'

@[simp]
theorem length_addSlot (m : Mapping) (s : SetImplementation) :
    (m.addSlot s).slots.length = m.slots.length + 1 :=
  List.length_append

theorem Begins.slot {m m' : Mapping} {s : SetImplementation} (h : (m.addSlot s).Begins m') :
    m'.slots[m.slots.length]? = some s := by
  obtain ⟨t, ht⟩ := h
  rw [← ht]
  simp [addSlot]

theorem slot_eq_ok {m : Mapping} {index : Nat} {s : SetImplementation}
    (h : m.slots[index]? = some s) : m.slot index = .ok s := by
  rw [slot, h]

end Mapping

open Mapping

namespace PropertyMappingDocument

variable {names : Naming}

/-- The document is gathered again from the slots that it was spread over. -/
def Gathers (names : Naming) (d : PropertyMappingDocument) : Prop :=
  ∀ m, m.Extends (d.intern m).2 ∧
    ∀ whole fuel, (d.intern m).2.Begins whole → (d.intern m).2.slots.length < fuel →
      whole.propertyJson names fuel (d.intern m).1 = .ok (d.toJson names)

theorem gathers_all {ds : List PropertyMappingDocument} (h : ∀ d ∈ ds, d.Gathers names)
    (m : Mapping) : m.Extends (internAll ds m).2 ∧
      ∀ whole fuel, (internAll ds m).2.Begins whole → (internAll ds m).2.slots.length < fuel →
        (internAll ds m).1.mapM (whole.propertyJson names fuel) =
          .ok (ds.map (toJson names)) := by
  induction ds generalizing m with
  | nil => exact ⟨Extends.refl m, fun _ _ _ _ => rfl⟩
  | cons d ds ih =>
    obtain ⟨hd, hwrite⟩ := h d List.mem_cons_self m
    obtain ⟨hds, hwrites⟩ := ih (fun e he => h e (List.mem_cons_of_mem _ he)) (d.intern m).2
    rw [internAll]
    refine ⟨hd.trans hds, ?_⟩
    intro whole fuel hb hf
    have hhead := hwrite whole fuel (hds.begins.trans hb) (Nat.lt_of_le_of_lt hds.length_le hf)
    rw [List.mapM_cons, hhead, hwrites whole fuel hb hf]
    rfl

theorem gathers_plain {p : PropertyMapping} (h : p.embedded? = none) : (plain p).Gathers names := by
  intro m
  refine ⟨Extends.refl m, ?_⟩
  intro whole fuel hb hf
  obtain ⟨fuel, rfl⟩ := Nat.exists_eq_add_one_of_ne_zero (Nat.ne_of_gt (Nat.zero_lt_of_lt hf))
  rw [intern, propertyJson, toJson]
  cases hk : p.kind with
  | pure transform explode => rfl
  | relational operation => rfl
  | embedded index =>
    rw [PropertyMapping.embedded?, hk] at h
    cases h

theorem gathers_of_read {fuel : Nat} {j : Json} {d : PropertyMappingDocument}
    (h : read fuel j = some d) : d.Gathers names := by
  induction fuel generalizing j d with
  | zero => cases h
  | succ fuel ih =>
    obtain ⟨⟨tag, document⟩, -, h⟩ := bind_eq_some.mp h
    simp only at h
    split at h
    · simp only [bind_eq_some, pure_eq_some] at h
      obtain ⟨r, -, p, -, source, -, target, -, enum, -, transform, -, explode, -, rfl⟩ := h
      exact gathers_plain rfl
    · simp only [bind_eq_some, pure_eq_some] at h
      obtain ⟨r, -, p, -, source, -, target, -, enum, -, operation, -, rfl⟩ := h
      exact gathers_plain rfl
    · simp only [bind_eq_some, pure_eq_some, list_eq] at h
      obtain ⟨r, -, ⟨owner, property⟩, -, source, -, id, -, target, -, root, -, properties, hps, rfl⟩ :=
        h
      have hall : ∀ d ∈ properties, d.Gathers names := by
        intro d hd
        obtain ⟨i, hi⟩ := mem_of_list hps d hd
        exact ih hi
      intro m
      obtain ⟨he, hwrites⟩ := gathers_all hall m
      rw [intern]
      refine ⟨he.trans (extends_addSlot _ _), ?_⟩
      intro whole more hb hm
      rw [length_addSlot] at hm
      obtain ⟨more, rfl⟩ := Nat.exists_eq_add_one_of_ne_zero (Nat.ne_of_gt (Nat.zero_lt_of_lt hm))
      have hs := slot_eq_ok hb.slot
      have hps := hwrites whole more ((extends_addSlot _ _).begins.trans hb)
        (Nat.lt_of_succ_lt_succ hm)
      rw [propertyJson, toJson, toJsons_eq]
      simp only [hs, ok_bind, hps]
      rfl
    · cases h

end PropertyMappingDocument

theorem Operation.text_of_ofText? {name : String} {o : Operation} (h : ofText? name = some o) :
    o.text = name := by
  simp only [ofText?] at h
  split at h <;> cases h <;> rfl

namespace ClassMappingDocument

variable {names : Naming}

theorem intern_aggregationAware_eq_ok {header : ClassMappingHeader} {main : ClassMappingDocument}
    {as : List (Nat × AggregationSpecification × ClassMappingDocument)}
    {properties : List PropertyMappingDocument} {m m' : Mapping} {s : SetImplementation}
    (h : intern (.aggregationAware header main as properties) m = .ok (s, m')) :
    ∃ inner mMain aggregates mAggregates, main.intern m = .ok (inner, mMain) ∧
      internAggregates as (mMain.addSlot inner) = .ok (aggregates, mAggregates) ∧
      s = header.implementation (.aggregationAware mMain.slots.length aggregates
        (PropertyMappingDocument.internAll properties mAggregates).1) ∧
      m' = (PropertyMappingDocument.internAll properties mAggregates).2 := by
  rw [intern] at h
  cases hm : main.intern m with
  | error name =>
    rw [hm] at h
    cases h
  | ok result =>
    obtain ⟨inner, mMain⟩ := result
    simp only [hm] at h
    cases ha : internAggregates as (mMain.addSlot inner) with
    | error name =>
      rw [ha] at h
      cases h
    | ok result =>
      obtain ⟨aggregates, mAggregates⟩ := result
      simp only [ha] at h
      cases h
      exact ⟨inner, mMain, aggregates, mAggregates, rfl, ha, rfl, rfl⟩

theorem intern_operation_eq_ok {header : ClassMappingHeader} {name : String}
    {parameters : List String} {m m' : Mapping} {s : SetImplementation}
    (h : intern (.operation header name parameters) m = .ok (s, m')) :
    ∃ o, Operation.ofText? name = some o ∧ m' = m ∧
      s = header.implementation (.operation o (parameters.map fun id => { id })) := by
  rw [intern] at h
  cases ho : Operation.ofText? name with
  | none =>
    rw [ho] at h
    cases h
  | some o =>
    rw [ho] at h
    cases h
    exact ⟨o, rfl, rfl, rfl⟩

theorem internAggregates_cons_eq_ok {index : Nat} {specification : AggregationSpecification}
    {d : ClassMappingDocument} {as : List (Nat × AggregationSpecification × ClassMappingDocument)}
    {m m' : Mapping} {aggregates : List Aggregate}
    (h : internAggregates ((index, specification, d) :: as) m = .ok (aggregates, m')) :
    ∃ s inner rest, d.intern m = .ok (s, inner) ∧
      internAggregates as (inner.addSlot s) = .ok (rest, m') ∧
      aggregates = ⟨index, specification, inner.slots.length⟩ :: rest := by
  rw [internAggregates] at h
  cases hd : d.intern m with
  | error name =>
    rw [hd] at h
    cases h
  | ok result =>
    obtain ⟨s, inner⟩ := result
    simp only [hd] at h
    cases hr : internAggregates as (inner.addSlot s) with
    | error name =>
      rw [hr] at h
      cases h
    | ok result =>
      obtain ⟨rest, last⟩ := result
      simp only [hr] at h
      cases h
      exact ⟨s, inner, rest, rfl, hr, rfl⟩

def Gathers (names : Naming) (d : ClassMappingDocument) : Prop :=
  ∀ {m m' s}, d.intern m = .ok (s, m') → m.Extends m' ∧
    ∀ whole fuel index, m'.Begins whole → whole.slots[index]? = some s → m'.slots.length < fuel →
      whole.classMappingJson names fuel index = .ok (d.toJson names)

def gatherAggregate (names : Naming) (m : Mapping) (fuel : Nat) (a : Aggregate) : Except MappingFault Json := do
  let d ← m.classMappingJson names fuel a.slot
  return Record.toJson (.field "index" (.ofNat a.index) ++
    .field "aggregateSpecification" a.specification.toJson ++ .field "setImplementation" d)

theorem gathers_aggregates
    {as : List (Nat × AggregationSpecification × ClassMappingDocument)}
    (h : ∀ a ∈ as, a.2.2.Gathers names) {m m' : Mapping} {aggregates : List Aggregate}
    (hi : internAggregates as m = .ok (aggregates, m')) :
    m.Extends m' ∧
      ∀ whole fuel, m'.Begins whole → m'.slots.length ≤ fuel →
        aggregates.mapM (gatherAggregate names whole fuel) = .ok (as.map (aggregateJson names)) := by
  induction as generalizing m aggregates with
  | nil =>
    cases hi
    exact ⟨Extends.refl _, fun _ _ _ _ => rfl⟩
  | cons a as ih =>
    obtain ⟨index, specification, d⟩ := a
    obtain ⟨s, inner, rest, hd, hr, rfl⟩ := internAggregates_cons_eq_ok hi
    obtain ⟨he, hwrite⟩ := h _ List.mem_cons_self hd
    obtain ⟨hes, hwrites⟩ := ih (fun b hb => h b (List.mem_cons_of_mem _ hb)) hr
    refine ⟨(he.trans (extends_addSlot _ _)).trans hes, ?_⟩
    intro whole fuel hb hf
    have hslot : (inner.addSlot s).Begins whole := hes.begins.trans hb
    have hlength : inner.slots.length < fuel := by
      have hle := hes.length_le
      rw [length_addSlot] at hle
      exact Nat.lt_of_lt_of_le hle hf
    have hhead := hwrite whole fuel inner.slots.length
      ((extends_addSlot _ _).begins.trans hslot) hslot.slot hlength
    have ha : gatherAggregate names whole fuel ⟨index, specification, inner.slots.length⟩ =
        .ok (aggregateJson names (index, specification, d)) := by
      rw [gatherAggregate, hhead]
      rfl
    rw [List.mapM_cons, ha, hwrites whole fuel hb hf]
    rfl

theorem classMappingJson_of_aggregation {m : Mapping} {fuel index main : Nat}
    {s : SetImplementation} {aggregates : List Aggregate} {properties : List PropertyMapping}
    (hs : m.slots[index]? = some s) (hk : s.kind = .aggregationAware main aggregates properties) :
    m.classMappingJson names (fuel + 1) index = (do
      let aggregates ← aggregates.mapM (gatherAggregate names m fuel)
      let main ← m.classMappingJson names fuel main
      let properties ← properties.mapM (m.propertyJson names (m.slots.length + 1))
      return Record.tagged "aggregationAware" (ClassMappingHeader.record names s ++
        .field "mainSetImplementation" main ++
        .listField "aggregateSetImplementations" aggregates ++
        .listField "propertyMappings" properties)) := by
  rw [Mapping.classMappingJson, slot_eq_ok hs]
  simp only [ok_bind, hk]
  rfl

section Gathers

variable {header : ClassMappingHeader} {properties : List PropertyMappingDocument}
  (hp : ∀ d ∈ properties, d.Gathers names)
include hp

theorem gathers_pureInstance (source : Option (Reference .class)) (filter : Option Json) :
    (pureInstance header source filter properties).Gathers names := by
  intro m m' s hi
  obtain ⟨he, hwrites⟩ := PropertyMappingDocument.gathers_all hp m
  rw [intern] at hi
  cases hi
  refine ⟨he, ?_⟩
  intro whole more index hb hs hm
  obtain ⟨more, rfl⟩ := Nat.exists_eq_add_one_of_ne_zero (Nat.ne_of_gt (Nat.zero_lt_of_lt hm))
  have hps := hwrites whole (whole.slots.length + 1) hb (Nat.lt_succ_of_le hb.length_le)
  rw [Mapping.classMappingJson, slot_eq_ok hs, toJson, ← ClassMappingHeader.record_implementation]
  simp only [ok_bind, ClassMappingHeader.implementation, hps]
  rfl

theorem gathers_relational (distinct : Bool) (table : Option TablePointer)
    (key : List RelationalOperation) :
    (relational header distinct table key properties).Gathers names := by
  intro m m' s hi
  obtain ⟨he, hwrites⟩ := PropertyMappingDocument.gathers_all hp m
  rw [intern] at hi
  cases hi
  refine ⟨he, ?_⟩
  intro whole more index hb hs hm
  obtain ⟨more, rfl⟩ := Nat.exists_eq_add_one_of_ne_zero (Nat.ne_of_gt (Nat.zero_lt_of_lt hm))
  have hps := hwrites whole (whole.slots.length + 1) hb (Nat.lt_succ_of_le hb.length_le)
  rw [Mapping.classMappingJson, slot_eq_ok hs, toJson, ← ClassMappingHeader.record_implementation]
  simp only [ok_bind, ClassMappingHeader.implementation, hps, RelationalOperation.toJsons_eq]
  rfl

/-- The slots of the main class mapping, of the aggregates and of the properties come one after the
other, so what follows the main one bounds the nesting of all of them. -/
theorem gathers_aggregationAware {main : ClassMappingDocument}
    {as : List (Nat × AggregationSpecification × ClassMappingDocument)}
    (hmain : main.Gathers names) (ha : ∀ a ∈ as, a.2.2.Gathers names) :
    (aggregationAware header main as properties).Gathers names := by
  intro m m' s hi
  obtain ⟨inner, mMain, aggregates, mAggregates, hm, has, rfl, rfl⟩ :=
    intern_aggregationAware_eq_ok hi
  obtain ⟨hem, hwrite⟩ := hmain hm
  obtain ⟨hea, hwriteAggregates⟩ := gathers_aggregates ha has
  obtain ⟨hep, hwrites⟩ := PropertyMappingDocument.gathers_all hp mAggregates
  refine ⟨((hem.trans (extends_addSlot _ _)).trans hea).trans hep, ?_⟩
  intro whole more index hb hs hlt
  obtain ⟨more, rfl⟩ := Nat.exists_eq_add_one_of_ne_zero (Nat.ne_of_gt (Nat.zero_lt_of_lt hlt))
  have hlast := Nat.le_of_lt_succ (Nat.lt_of_le_of_lt hep.length_le hlt)
  have hslot : (mMain.addSlot inner).Begins whole := (hea.trans hep).begins.trans hb
  have hshort : mMain.slots.length < more := by
    have hle := hea.length_le
    rw [length_addSlot] at hle
    exact Nat.lt_of_lt_of_le hle hlast
  have hmainJson := hwrite whole more mMain.slots.length
    ((extends_addSlot _ _).begins.trans hslot) hslot.slot hshort
  have haJson := hwriteAggregates whole more (hep.begins.trans hb) hlast
  have hpJson := hwrites whole (whole.slots.length + 1) hb (Nat.lt_succ_of_le hb.length_le)
  rw [classMappingJson_of_aggregation hs rfl, toJson, aggregateJsons_eq,
    ← ClassMappingHeader.record_implementation, haJson, ok_bind, hmainJson, ok_bind, hpJson]
  rfl

end Gathers

theorem gathers_operation (header : ClassMappingHeader) (name : String) (parameters : List String) :
    (operation header name parameters).Gathers names := by
  intro m m' s hi
  obtain ⟨o, ho, rfl, rfl⟩ := intern_operation_eq_ok hi
  refine ⟨Extends.refl _, ?_⟩
  intro whole more index hb hs hm
  obtain ⟨more, rfl⟩ := Nat.exists_eq_add_one_of_ne_zero (Nat.ne_of_gt (Nat.zero_lt_of_lt hm))
  rw [Mapping.classMappingJson, slot_eq_ok hs, toJson, ← ClassMappingHeader.record_implementation]
  simp only [ok_bind, ClassMappingHeader.implementation, Operation.text_of_ofText? ho, List.map_map]
  rfl

theorem gathers_of_read {fuel : Nat} {nested : Bool} {j : Json} {d : ClassMappingDocument}
    (h : read fuel nested j = some d) : d.Gathers names := by
  induction fuel generalizing nested j d with
  | zero => cases h
  | succ fuel ih =>
    have hall : ∀ {o : Option Json} {ds : List PropertyMappingDocument},
        readDefault [] (list? PropertyMappingDocument.ofJson?) o = some ds →
          ∀ d ∈ ds, d.Gathers names := by
      intro o ds hds d hd
      obtain ⟨i, hi⟩ := mem_of_list hds d hd
      exact PropertyMappingDocument.gathers_of_read hi
    obtain ⟨⟨tag, document⟩, -, h⟩ := bind_eq_some.mp h
    simp only at h
    intro m m' s hs
    split at h
    · simp only [bind_eq_some, pure_eq_some, list_eq] at h
      obtain ⟨r, -, header, -, source, -, filter, -, properties, hp, rfl⟩ := h
      exact gathers_pureInstance (hall hp) source filter hs
    · simp only [bind_eq_some, pure_eq_some, list_eq] at h
      obtain ⟨r, -, header, -, distinct, -, table, -, key, -, properties, hp, rfl⟩ := h
      exact gathers_relational (hall hp) distinct table key hs
    · change readAggregation fuel document = some d at h
      simp only [readAggregation, bind_eq_some, pure_eq_some, required_eq, list_eq] at h
      obtain ⟨r, -, header, -, main, hmain, aggregates, ha, properties, hp, rfl⟩ := h
      obtain ⟨i, -, hi⟩ := Option.bind_eq_some_iff.mp hmain
      refine gathers_aggregationAware (hall hp) (ih hi) ?_ hs
      intro a hmem
      obtain ⟨i, hi⟩ := mem_of_list ha a hmem
      simp only [readAggregate, bind_eq_some, pure_eq_some] at hi
      obtain ⟨t, -, number, -, specification, -, d, hd, rfl⟩ := hi
      obtain ⟨i, -, hi⟩ := Option.bind_eq_some_iff.mp hd
      exact ih hi
    · simp only [bind_eq_some, pure_eq_some, texts_eq] at h
      obtain ⟨r, -, header, -, name, -, parameters, -, rfl⟩ := h
      exact gathers_operation header name parameters hs
    · cases h

end ClassMappingDocument

/-- The set implementation with its id as it is found under the path of its class. -/
def SetImplementation.renewed (s : SetImplementation) : SetImplementation :=
  { s with id := s.id.renewed s.target.path }

namespace Mapping

def renewed (m : Mapping) : Mapping :=
  { m with
    slots := m.slots.map SetImplementation.renewed
    enumerationMappings := m.enumerationMappings.map EnumerationMapping.renewed }

variable (f : Rebinding)

@[simp]
theorem length_renewed_rebind (m : Mapping) :
    (m.rebind f).renewed.slots.length = m.slots.length := by
  simp [renewed, rebind]

theorem addTop_renewed_rebind (s : SetImplementation) (m : Mapping) :
    ((m.addTop s).rebind f).renewed = (m.rebind f).renewed.addTop (s.rebind f).renewed := by
  simp [addTop, addSlot, renewed, rebind]

theorem addSlot_renewed_rebind (s : SetImplementation) (m : Mapping) :
    ((m.addSlot s).rebind f).renewed = (m.rebind f).renewed.addSlot (s.rebind f).renewed := by
  simp [addSlot, renewed, rebind]

end Mapping

section Rebound

variable (f : Rebinding)

theorem ClassMappingHeader.implementation_rebind (h : ClassMappingHeader)
    (kind : SetImplementationKind) :
    (h.rebind f).implementation (SetImplementation.rebindKind f kind) =
      ((h.implementation kind).rebind f).renewed := by
  simp [implementation, rebind, SetImplementation.renewed, SetImplementation.rebind,
    MappingId.renewed]

namespace PropertyMappingDocument

mutual

theorem intern_rebind (d : PropertyMappingDocument) (m : Mapping) :
    (d.rebind f).intern (m.rebind f).renewed =
      ((d.intern m).1.rebind f, ((d.intern m).2.rebind f).renewed) := by
  cases d with
  | plain p => rfl
  | embedded owner property source id target root properties =>
    simp only [rebind, intern, internAll_rebind properties m, addSlot_renewed_rebind,
      length_renewed_rebind]
    rfl

theorem internAll_rebind (ds : List PropertyMappingDocument) (m : Mapping) :
    internAll (rebindAll f ds) (m.rebind f).renewed =
      ((internAll ds m).1.map (·.rebind f), ((internAll ds m).2.rebind f).renewed) := by
  cases ds with
  | nil => rfl
  | cons d ds =>
    simp only [rebindAll, internAll, intern_rebind d m, internAll_rebind ds (d.intern m).2,
      List.map_cons]

end

end PropertyMappingDocument

namespace ClassMappingDocument

open PropertyMappingDocument (internAll internAll_rebind rebindAll_eq)

mutual

theorem intern_rebind (d : ClassMappingDocument) {m m' : Mapping} {s : SetImplementation}
    (h : d.intern m = .ok (s, m')) :
    (d.rebind f).intern (m.rebind f).renewed = .ok ((s.rebind f).renewed, (m'.rebind f).renewed) := by
  cases d with
  | pureInstance header source filter properties =>
    cases h
    rw [rebind, intern, ← rebindAll_eq, internAll_rebind, ← header.implementation_rebind]
    rfl
  | relational header distinct table key properties =>
    cases h
    rw [rebind, intern, ← rebindAll_eq, internAll_rebind, ← header.implementation_rebind]
    rfl
  | aggregationAware header main as properties =>
    obtain ⟨inner, mMain, aggregates, mAggregates, hm, ha, rfl, rfl⟩ :=
      intern_aggregationAware_eq_ok h
    rw [rebind, intern, main.intern_rebind hm]
    simp only [← addSlot_renewed_rebind, internAggregates_rebind as ha, length_renewed_rebind]
    rw [← rebindAll_eq, internAll_rebind, ← header.implementation_rebind]
    rfl
  | operation header name parameters =>
    obtain ⟨o, ho, rfl, rfl⟩ := intern_operation_eq_ok h
    rw [rebind, intern, ho, ← header.implementation_rebind]
    rfl

theorem internAggregates_rebind (as : List (Nat × AggregationSpecification × ClassMappingDocument))
    {m m' : Mapping} {aggregates : List Aggregate}
    (h : internAggregates as m = .ok (aggregates, m')) :
    internAggregates (rebindAggregates f as) (m.rebind f).renewed =
      .ok (aggregates, (m'.rebind f).renewed) := by
  cases as with
  | nil =>
    cases h
    rfl
  | cons a as =>
    obtain ⟨index, specification, d⟩ := a
    obtain ⟨s, inner, rest, hd, hr, rfl⟩ := internAggregates_cons_eq_ok h
    rw [rebindAggregates, internAggregates, d.intern_rebind hd]
    simp only [← addSlot_renewed_rebind, internAggregates_rebind as hr, length_renewed_rebind]

end

end ClassMappingDocument

end Rebound

end ModelGraph
