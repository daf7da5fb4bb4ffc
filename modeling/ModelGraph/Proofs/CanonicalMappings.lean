import ModelGraph.Proofs.CanonicalRuntimes
import ModelGraph.Proofs.Interning

namespace ModelGraph

open Record Json

variable {n : Nat}

theorem int64_keeps : Keeps int64? :=
  keeps_of_canonical fun _ _ h => isCanonical_of_intBetween? h

theorem SourceValue.keeps : Keeps SourceValue.ofJson? := by
  intro j v hj h
  obtain ⟨⟨tag, d⟩, hd, h⟩ := bind_eq_some.mp h
  obtain ⟨hd', hregular, -⟩ := tagged?_canonical hj hd
  simp only at h
  split at h
  · simp only [bind_eq_some, pure_eq_some] at h
    obtain ⟨r, hr, value, hv, rfl⟩ := h
    obtain ⟨r', hr', t⟩ := trims hregular (Nat.le_refl _) hr
    have hv := text_keeps.of_lookup (t "value") ⟨rfl, rfl⟩ hv
    simp [ofJson?, hd', hr', hv]
  · simp only [bind_eq_some, pure_eq_some] at h
    obtain ⟨r, hr, value, hv, rfl⟩ := h
    obtain ⟨r', hr', t⟩ := trims hregular (Nat.le_refl _) hr
    have hv := int64_keeps.of_lookup (t "value") ⟨rfl, rfl⟩ hv
    simp [ofJson?, hd', hr', hv]
  · simp only [bind_eq_some, pure_eq_some] at h
    obtain ⟨r, hr, enumeration, he, value, hv, rfl⟩ := h
    obtain ⟨r', hr', t⟩ := trims hregular (Nat.le_refl _) hr
    have he := Reference.keeps.of_lookup (t "enumeration") ⟨rfl, rfl⟩ he
    have hv := text_keeps.of_lookup (t "value") ⟨rfl, rfl⟩ hv
    simp [ofJson?, hd', hr', he, hv]
  · cases h

theorem EnumValueMapping.keeps : Keeps EnumValueMapping.ofJson? := by
  intro j m hj h
  simp only [EnumValueMapping.ofJson?, bind_eq_some, pure_eq_some, list_eq] at h
  obtain ⟨r, hr, enumValue, he, sources, hs, rfl⟩ := h
  obtain ⟨r', hr', t⟩ := trims hj (Nat.le_refl _) hr
  have he := text_keeps.of_lookup (t "enumValue") ⟨rfl, rfl⟩ he
  have hs := SourceValue.keeps.of_list (t "sourceValues") hs
  simp [ofJson?, hr', he, hs]

theorem EnumerationMapping.keeps : Keeps EnumerationMapping.ofJson? := by
  intro j m hj h
  simp only [EnumerationMapping.ofJson?, bind_eq_some, pure_eq_some, list_eq, optText_eq] at h
  obtain ⟨r, hr, id, hi, enumeration, he, values, hv, rfl⟩ := h
  obtain ⟨r', hr', t⟩ := trims hj (Nat.le_refl _) hr
  have hi := text_keeps.of_optional (t "id") rfl hi
  have he := Reference.keeps.of_lookup (t "enumeration") ⟨rfl, rfl⟩ he
  have hv := EnumValueMapping.keeps.of_list (t "enumValueMappings") hv
  simp [ofJson?, hr', hi, he, hv]

theorem MappingDocument.include_keeps : Keeps MappingDocument.includeOfJson? := by
  intro j i hj h
  simp only [includeOfJson?, bind_eq_some, withDefault_eq] at h
  obtain ⟨r, hr, tag, hg, h⟩ := h
  obtain ⟨r', hr', t⟩ := trims hj (Nat.le_refl _) hr
  have hg := text_keeps.of_default (t "_type") ⟨rfl, rfl⟩ hg
  have h := Reference.keeps.of_lookup (t "includedMapping") ⟨rfl, rfl⟩ h
  simp [includeOfJson?, hr', hg, h]

def PropertyMappingKind.IsCanonical : PropertyMappingKind → Prop
  | .pure transform _ => transform.IsStated
  | .relational operation => operation.IsCanonical
  | .embedded _ => True

def PropertyMapping.IsCanonical (p : PropertyMapping) : Prop := p.kind.IsCanonical

namespace PropertyMappingDocument

mutual

def IsCanonical : PropertyMappingDocument → Prop
  | .plain p => p.IsCanonical
  | .embedded _ _ _ _ _ _ properties => AreCanonical properties

def AreCanonical : List PropertyMappingDocument → Prop
  | [] => True
  | d :: rest => d.IsCanonical ∧ AreCanonical rest

end

theorem areCanonical_iff {ds : List PropertyMappingDocument} :
    AreCanonical ds ↔ ∀ d ∈ ds, d.IsCanonical := by
  induction ds with
  | nil => simp [AreCanonical]
  | cons d ds ih => simp [AreCanonical, ih]

theorem pointer?_keeps : Keeps pointer? := by
  intro j p hj h
  simp only [pointer?, bind_eq_some, pure_eq_some] at h
  obtain ⟨r, hr, owner, ho, property, hp, rfl⟩ := h
  obtain ⟨r', hr', t⟩ := trims hj (Nat.le_refl _) hr
  have ho := Reference.keeps.of_lookup (t "class") ⟨rfl, rfl⟩ ho
  have hp := text_keeps.of_lookup (t "property") ⟨rfl, rfl⟩ hp
  simp [pointer?, hr', ho, hp]

theorem agrees_read (fuel n : Nat) : Agrees n IsCanonical (read fuel) (read n) := by
  induction fuel generalizing n with
  | zero =>
    intro j p _ _ _ h
    cases h
  | succ fuel ih =>
    intro j p hj hn hc h
    cases n with
    | zero => exact absurd hn (Nat.not_lt_zero _)
    | succ n =>
      obtain ⟨⟨tag, d⟩, hd, h⟩ := bind_eq_some.mp h
      obtain ⟨hd', hregular, hle⟩ := tagged?_canonical hj hd
      have hle := Nat.le_trans hle (Nat.le_of_lt_succ hn)
      simp only at h
      split at h
      · simp only [bind_eq_some, pure_eq_some, optText_eq, optional_eq] at h
        obtain ⟨r, hr, pointer, hp, source, hs, target, ht, id, hi, transform, hf, explode, he,
          rfl⟩ := h
        obtain ⟨r', hr', t⟩ := trims hregular hle hr
        have hp := pointer?_keeps.of_lookup (t "property") ⟨rfl, rfl⟩ hp
        have hs := text_keeps.of_optional (t "source") rfl hs
        have ht := text_keeps.of_optional (t "target") rfl ht
        have hi := text_keeps.of_optional (t "enumMappingId") rfl hi
        have hf := (t "transform").eq_some hf hc
        have he := bool_keeps.of_optional (t "explodeProperty") rfl he
        simp [read, hd', hr', hp, hs, ht, hi, hf, he]
      · simp only [bind_eq_some, pure_eq_some, optText_eq] at h
        obtain ⟨r, hr, pointer, hp, source, hs, target, ht, id, hi, operation, ho, rfl⟩ := h
        obtain ⟨r', hr', t⟩ := trims hregular hle hr
        have hp := pointer?_keeps.of_lookup (t "property") ⟨rfl, rfl⟩ hp
        have hs := text_keeps.of_optional (t "source") rfl hs
        have ht := text_keeps.of_optional (t "target") rfl ht
        have hi := text_keeps.of_optional (t "enumMappingId") rfl hi
        have ho := (RelationalOperation.agrees true).of_lookup (t "relationalOperation") ⟨rfl, rfl⟩ hc
          ho
        simp [read, hd', hr', hp, hs, ht, hi, ho]
      · simp only [bind_eq_some, pure_eq_some, optText_eq, flag_eq, list_eq] at h
        obtain ⟨r, hr, pointer, hp, source, hs, id, hi, target, ht, root, hb, properties, hps,
          rfl⟩ := h
        obtain ⟨r', hr', t⟩ := trims hregular hle hr
        rw [IsCanonical, areCanonical_iff] at hc
        have hp := pointer?_keeps.of_lookup (t "property") ⟨rfl, rfl⟩ hp
        have hs := text_keeps.of_optional (t "source") rfl hs
        have hi := text_keeps.of_lookup (t "id") ⟨rfl, rfl⟩ hi
        have ht := Reference.keeps.of_lookup (t "class") ⟨rfl, rfl⟩ ht
        have hb := bool_keeps.of_default (t "root") ⟨rfl, rfl⟩ hb
        have hps := (ih n).of_list (t "propertyMappings") hc hps
        simp [read, hd', hr', hp, hs, hi, ht, hb, hps]
      · cases h

theorem agrees : Agrees n IsCanonical ofJson? ofJson? :=
  fun j _ hj _ hd h => agrees_read (j.depth + 1) (j.canonical.depth + 1) hj (Nat.lt_succ_self _) hd h

end PropertyMappingDocument

structure AggregateValue.IsCanonical (v : AggregateValue) : Prop where
  map : v.map.IsStated
  aggregate : v.aggregate.IsStated

structure AggregationSpecification.IsCanonical (s : AggregationSpecification) : Prop where
  groupBy : ∀ j ∈ s.groupBy, j.IsCanonical
  values : ∀ v ∈ s.values, v.IsCanonical

namespace AggregationSpecification

theorem value_agrees : Agrees n AggregateValue.IsCanonical valueOfJson? valueOfJson? := by
  intro j v hj _ hv h
  simp only [valueOfJson?, bind_eq_some, pure_eq_some] at h
  obtain ⟨r, hr, map, hm, aggregate, ha, rfl⟩ := h
  obtain ⟨r', hr', t⟩ := trims hj (Nat.le_refl _) hr
  have hm := (t "mapFn").eq_some hm hv.map
  have ha := (t "aggregateFn").eq_some ha hv.aggregate
  simp [valueOfJson?, hr', hm, ha]

theorem agrees : Agrees n IsCanonical AggregationSpecification.ofJson?
    AggregationSpecification.ofJson? := by
  intro j s hj _ hs h
  simp only [AggregationSpecification.ofJson?, bind_eq_some, pure_eq_some, flag_eq, list_eq] at h
  obtain ⟨r, hr, canAggregate, hc, groupBy, hg, values, hv, rfl⟩ := h
  obtain ⟨r', hr', t⟩ := trims hj (Nat.le_refl _) hr
  have hc := bool_keeps.of_default (t "canAggregate") ⟨rfl, rfl⟩ hc
  have hg := json_agrees.of_list (t "groupByFunctions") hs.groupBy hg
  have hv := value_agrees.of_list (t "aggregateValues") hs.values hv
  simp [ofJson?, hr', hc, hg, hv]

end AggregationSpecification

namespace ClassMappingHeader

theorem keeps_found {r r' : Record} (t : ∀ k, Trims n k (r.lookup k) (r'.lookup k))
    {a : ClassMappingHeader}
    (h : ofFound? (r.lookup "id") (r.lookup "class") (r.lookup "root") = some a) :
    ofFound? (r'.lookup "id") (r'.lookup "class") (r'.lookup "root") = some a := by
  simp only [ofFound?, bind_eq_some, pure_eq_some] at h
  obtain ⟨id, hi, target, ht, root, hr, rfl⟩ := h
  have hi := text_keeps.of_optional (t "id") rfl hi
  have ht := Reference.keeps.of_lookup (t "class") ⟨rfl, rfl⟩ ht
  have hr := bool_keeps.of_default (t "root") ⟨rfl, rfl⟩ hr
  simp [ofFound?, hi, ht, hr]

theorem keeps : Keeps ClassMappingHeader.ofJson? := by
  intro j a hj h
  cases j with
  | obj members =>
    change ofRecord? members = some a at h
    change ofRecord? (canonicalMembers members) = some a
    rw [ofRecord?_eq] at h ⊢
    exact keeps_found (trims_lookup hj (Nat.le_refl _)) h
  | arr items =>
    obtain ⟨r, hr, h⟩ := bind_eq_some.mp h
    obtain ⟨r', hr', t⟩ := trims hj (Nat.le_refl _) hr
    refine bind_eq_some.mpr ⟨r', hr', ?_⟩
    change ofRecord? r = some a at h
    change ofRecord? r' = some a
    rw [ofRecord?_eq] at h ⊢
    exact keeps_found t h
  | _ => cases h

end ClassMappingHeader

namespace ClassMappingDocument

mutual

def IsCanonical : ClassMappingDocument → Prop
  | .pureInstance _ _ filter properties =>
    (∀ j ∈ filter, j.IsStable) ∧ ∀ p ∈ properties, p.IsCanonical
  | .relational _ _ _ primaryKey properties =>
    (∀ o ∈ primaryKey, o.IsCanonical) ∧ ∀ p ∈ properties, p.IsCanonical
  | .aggregationAware _ main aggregates properties =>
    main.IsCanonical ∧ AreCanonical aggregates ∧ ∀ p ∈ properties, p.IsCanonical
  | .operation _ _ _ => True

def AreCanonical : List (Nat × AggregationSpecification × ClassMappingDocument) → Prop
  | [] => True
  | (_, specification, d) :: rest =>
    specification.IsCanonical ∧ d.IsCanonical ∧ AreCanonical rest

end

theorem areCanonical_iff {as : List (Nat × AggregationSpecification × ClassMappingDocument)} :
    AreCanonical as ↔ ∀ a ∈ as, a.2.1.IsCanonical ∧ a.2.2.IsCanonical := by
  induction as with
  | nil => simp [AreCanonical]
  | cons a as ih =>
    obtain ⟨index, specification, d⟩ := a
    simp [AreCanonical, ih, and_assoc]

theorem strict_read (fuel : Nat) : Strict (read fuel true) where
  null := by cases fuel <;> rfl
  nil := by cases fuel <;> rfl

theorem agrees_readAggregate {fuel : Nat}
    (h : Agrees n IsCanonical (read fuel true) (read n true)) :
    Agrees n (fun a => a.2.1.IsCanonical ∧ a.2.2.IsCanonical) (readAggregate fuel)
      (readAggregate n) := by
  intro j a hj hn ha hread
  simp only [readAggregate, bind_eq_some, pure_eq_some] at hread
  obtain ⟨r, hr, index, hi, specification, hs, d, hd, rfl⟩ := hread
  obtain ⟨r', hr', t⟩ := trims hj (Nat.le_of_lt hn) hr
  have hi := nat32_keeps.of_lookup (t "index") ⟨rfl, rfl⟩ hi
  have hs := AggregationSpecification.agrees.of_document (t "aggregateSpecification") (by decide)
    rfl ha.1 hs
  have hd := h.of_lookup (t "setImplementation") (strict_read fuel) ha.2 hd
  simp [readAggregate, hr', hi, hs, hd]

theorem agrees_read (fuel n : Nat) (nested : Bool) :
    Agrees n IsCanonical (read fuel nested) (read n nested) := by
  induction fuel generalizing n nested with
  | zero =>
    intro j c _ _ _ h
    cases h
  | succ fuel ih =>
    intro j c hj hn hc h
    cases n with
    | zero => exact absurd hn (Nat.not_lt_zero _)
    | succ n =>
      obtain ⟨⟨tag, d⟩, hd, h⟩ := bind_eq_some.mp h
      obtain ⟨hd', hregular, hle⟩ := tagged?_canonical hj hd
      have hle := Nat.le_trans hle (Nat.le_of_lt_succ hn)
      simp only at h
      split at h
      · simp only [bind_eq_some, pure_eq_some, optional_eq, list_eq,
          ClassMappingHeader.ofRecord?_eq] at h
        obtain ⟨r, hr, header, hh, source, hs, filter, hf, properties, hp, rfl⟩ := h
        obtain ⟨r', hr', t⟩ := trims hregular hle hr
        rw [IsCanonical] at hc
        have hfilter : Agrees n IsStable some some := fun j a hj hn ha h =>
          json_agrees hj hn ha.canonical h
        have hnil : ∀ j, some (Json.arr []) = some j → ¬j.IsStable := by
          intro j he hs
          exact hs.ne_nil (Option.some.inj he).symm
        have hh := ClassMappingHeader.keeps_found t hh
        have hs := Reference.keeps.of_optional (t "srcClass") rfl hs
        have hf := hfilter.of_optional (t "filter") hnil hc.1 hf
        have hp := PropertyMappingDocument.agrees.of_list (t "propertyMappings") hc.2 hp
        simp [read, hd', hr', hh, hs, hf, hp]
      · simp only [bind_eq_some, pure_eq_some, flag_eq, optional_eq, list_eq,
          ClassMappingHeader.ofRecord?_eq] at h
        obtain ⟨r, hr, header, hh, distinct, hs, table, ht, key, hk, properties, hp, rfl⟩ := h
        obtain ⟨r', hr', t⟩ := trims hregular hle hr
        rw [IsCanonical] at hc
        have hh := ClassMappingHeader.keeps_found t hh
        have hs := bool_keeps.of_default (t "distinct") ⟨rfl, rfl⟩ hs
        have ht := TablePointer.keeps.of_optional (t "mainTable") rfl ht
        have hk := (RelationalOperation.agrees true).of_list (t "primaryKey") hc.1 hk
        have hp := PropertyMappingDocument.agrees.of_list (t "propertyMappings") hc.2 hp
        simp [read, hd', hr', hh, hs, ht, hk, hp]
      · change readAggregation fuel d = some c at h
        simp only [readAggregation, bind_eq_some, pure_eq_some, list_eq,
          ClassMappingHeader.ofRecord?_eq] at h
        obtain ⟨r, hr, header, hh, main, hm, aggregates, ha, properties, hp, rfl⟩ := h
        obtain ⟨r', hr', t⟩ := trims hregular hle hr
        rw [IsCanonical, areCanonical_iff] at hc
        have hh := ClassMappingHeader.keeps_found t hh
        have hm := (ih n true).of_lookup (t "mainSetImplementation") (strict_read fuel) hc.1 hm
        have ha := (agrees_readAggregate (ih n true)).of_list (t "aggregateSetImplementations")
          hc.2.1 ha
        have hp := PropertyMappingDocument.agrees.of_list (t "propertyMappings") hc.2.2 hp
        rw [read_of_aggregation hd']
        simp [readAggregation, hr', hh, hm, ha, hp]
      · simp only [bind_eq_some, pure_eq_some, texts_eq, ClassMappingHeader.ofRecord?_eq] at h
        obtain ⟨r, hr, header, hh, operation, ho, parameters, hp, rfl⟩ := h
        obtain ⟨r', hr', t⟩ := trims hregular hle hr
        have hh := ClassMappingHeader.keeps_found t hh
        have ho := text_keeps.of_lookup (t "operation") ⟨rfl, rfl⟩ ho
        have hp := text_keeps.of_list (t "parameters") hp
        simp [read, hd', hr', hh, ho, hp]
      · cases h

theorem agrees : Agrees n IsCanonical ofJson? ofJson? :=
  fun j _ hj _ hd h => agrees_read (j.depth + 1) (j.canonical.depth + 1) false hj
    (Nat.lt_succ_self _) hd h

end ClassMappingDocument

def SetImplementationKind.IsCanonical : SetImplementationKind → Prop
  | .pureInstance _ filter properties =>
    (∀ j ∈ filter, j.IsStable) ∧ ∀ p ∈ properties, p.IsCanonical
  | .relational _ _ primaryKey properties =>
    (∀ o ∈ primaryKey, o.IsCanonical) ∧ ∀ p ∈ properties, p.IsCanonical
  | .embedded properties => ∀ p ∈ properties, p.IsCanonical
  | .aggregationAware _ aggregates properties =>
    (∀ a ∈ aggregates, a.specification.IsCanonical) ∧ ∀ p ∈ properties, p.IsCanonical
  | .operation _ _ => True
  | .extension _ => True

def SetImplementation.IsCanonical (s : SetImplementation) : Prop := s.kind.IsCanonical

def Mapping.IsCanonical (m : Mapping) : Prop := ∀ s ∈ m.slots, s.IsCanonical

@[simp]
theorem Mapping.isCanonical_addSlot {s : SetImplementation} {m : Mapping} :
    (m.addSlot s).IsCanonical ↔ m.IsCanonical ∧ s.IsCanonical := by
  simp [Mapping.IsCanonical, addSlot, or_imp, forall_and]

@[simp]
theorem Mapping.isCanonical_addTop {s : SetImplementation} {m : Mapping} :
    (m.addTop s).IsCanonical ↔ m.IsCanonical ∧ s.IsCanonical :=
  isCanonical_addSlot

namespace PropertyMappingDocument

mutual

theorem isCanonical_of_intern (d : PropertyMappingDocument) (m : Mapping)
    (hp : (d.intern m).1.IsCanonical) (hm : (d.intern m).2.IsCanonical) :
    d.IsCanonical ∧ m.IsCanonical := by
  cases d with
  | plain p => exact ⟨hp, hm⟩
  | embedded owner property source id target root properties =>
    rw [intern] at hm
    rw [Mapping.isCanonical_addSlot] at hm
    exact isCanonical_of_internAll properties m hm.2 hm.1

theorem isCanonical_of_internAll (ds : List PropertyMappingDocument) (m : Mapping)
    (hps : ∀ p ∈ (internAll ds m).1, p.IsCanonical) (hm : (internAll ds m).2.IsCanonical) :
    AreCanonical ds ∧ m.IsCanonical := by
  cases ds with
  | nil => exact ⟨trivial, hm⟩
  | cons d ds =>
    rw [internAll] at hps hm
    obtain ⟨hds, hm⟩ := isCanonical_of_internAll ds (d.intern m).2
      (fun p hp => hps p (List.mem_cons_of_mem _ hp)) hm
    obtain ⟨hd, hm⟩ := isCanonical_of_intern d m (hps _ List.mem_cons_self) hm
    exact ⟨⟨hd, hds⟩, hm⟩

end

end PropertyMappingDocument

namespace ClassMappingDocument

open PropertyMappingDocument (internAll isCanonical_of_internAll)

mutual

theorem isCanonical_of_intern (d : ClassMappingDocument) {m m' : Mapping} {s : SetImplementation}
    (h : d.intern m = .ok (s, m')) (hs : s.IsCanonical) (hm : m'.IsCanonical) :
    d.IsCanonical ∧ m.IsCanonical := by
  cases d with
  | pureInstance header source filter properties =>
    cases h
    obtain ⟨hps, hm⟩ := isCanonical_of_internAll properties m hs.2 hm
    rw [PropertyMappingDocument.areCanonical_iff] at hps
    exact ⟨⟨hs.1, hps⟩, hm⟩
  | relational header distinct table key properties =>
    cases h
    obtain ⟨hps, hm⟩ := isCanonical_of_internAll properties m hs.2 hm
    rw [PropertyMappingDocument.areCanonical_iff] at hps
    exact ⟨⟨hs.1, hps⟩, hm⟩
  | aggregationAware header main as properties =>
    obtain ⟨inner, mMain, aggregates, mAggregates, hmain, ha, rfl, rfl⟩ :=
      intern_aggregationAware_eq_ok h
    obtain ⟨hps, hm⟩ := isCanonical_of_internAll properties mAggregates hs.2 hm
    obtain ⟨has, hm⟩ := areCanonical_of_intern as ha hs.1 hm
    rw [Mapping.isCanonical_addSlot] at hm
    obtain ⟨hmain, hm⟩ := main.isCanonical_of_intern hmain hm.2 hm.1
    rw [PropertyMappingDocument.areCanonical_iff] at hps
    exact ⟨⟨hmain, has, hps⟩, hm⟩
  | operation header name parameters =>
    obtain ⟨-, -, rfl, -⟩ := intern_operation_eq_ok h
    exact ⟨trivial, hm⟩

theorem areCanonical_of_intern
    (as : List (Nat × AggregationSpecification × ClassMappingDocument)) {m m' : Mapping}
    {aggregates : List Aggregate} (h : internAggregates as m = .ok (aggregates, m'))
    (hs : ∀ a ∈ aggregates, a.specification.IsCanonical) (hm : m'.IsCanonical) :
    AreCanonical as ∧ m.IsCanonical := by
  cases as with
  | nil =>
    cases h
    exact ⟨trivial, hm⟩
  | cons a as =>
    obtain ⟨index, specification, d⟩ := a
    obtain ⟨s, inner, rest, hd, hr, rfl⟩ := internAggregates_cons_eq_ok h
    obtain ⟨has, hm⟩ := areCanonical_of_intern as hr (fun b hb => hs b (List.mem_cons_of_mem _ hb)) hm
    rw [Mapping.isCanonical_addSlot] at hm
    obtain ⟨hd, hm⟩ := d.isCanonical_of_intern hd hm.2 hm.1
    exact ⟨⟨hs _ List.mem_cons_self, hd, has⟩, hm⟩

end

end ClassMappingDocument

end ModelGraph
