import ModelGraph.Proofs.IdentifiedMappings
import ModelGraph.Proofs.WrittenMappings

namespace ModelGraph

open Record Json

theorem Json.lt_of_nat32? {j : Json} {n : Nat} (h : j.nat32? = some n) : n < UInt32.size := by
  obtain ⟨i, hi, rfl⟩ := Option.map_eq_some_iff.mp h
  obtain ⟨-, hlow, hhigh⟩ := intBetween?_eq_some.mp hi
  have hmax : ((Nat.pow 2 32 - 1 : Nat) : Int) = UInt32.size - 1 := rfl
  omega

namespace SetImplementation

theorem Fits.mono {i j : Nat} {s : SetImplementation} (h : s.Fits i) (hle : i ≤ j) : s.Fits j where
  inner n hn := Nat.lt_of_lt_of_le (h.inner n hn) hle
  explicit := h.explicit
  bounded := h.bounded

end SetImplementation

namespace Mapping

variable {m : Mapping} {s : SetImplementation}

theorem fits_empty (includes : List (Reference .mapping)) : Fits { includes } := by
  intro i s hs
  cases hs

theorem Fits.addSlot (h : m.Fits) (hs : s.Fits m.slots.length) : (m.addSlot s).Fits := by
  intro i t ht
  rw [Mapping.addSlot, List.getElem?_append] at ht
  split at ht
  · exact h ht
  next hlt =>
    rw [List.getElem?_singleton, Option.ite_none_right_eq_some, Option.some.injEq] at ht
    obtain ⟨hi, rfl⟩ := ht
    exact hs.mono (by omega)

theorem Fits.addTop (h : m.Fits) (hs : s.Fits m.slots.length) : (m.addTop s).Fits :=
  h.addSlot hs

end Mapping

namespace PropertyMappingDocument

open Mapping

def Taken (ps : List PropertyMapping) (m : Mapping) : Prop :=
  ∀ p ∈ ps, ∀ n, p.embedded? = some n → n < m.slots.length

theorem taken_nil {m : Mapping} : Taken [] m := fun _ hp => absurd hp List.not_mem_nil

def Settles (d : PropertyMappingDocument) : Prop :=
  ∀ m, m.Fits → (d.intern m).2.Fits ∧ m.slots.length ≤ (d.intern m).2.slots.length ∧
    Taken [(d.intern m).1] (d.intern m).2

theorem settles_all {ds : List PropertyMappingDocument} (h : ∀ d ∈ ds, d.Settles) {m : Mapping}
    (hm : m.Fits) : (internAll ds m).2.Fits ∧ m.slots.length ≤ (internAll ds m).2.slots.length ∧
      Taken (internAll ds m).1 (internAll ds m).2 := by
  induction ds generalizing m with
  | nil => exact ⟨hm, Nat.le_refl _, fun p hp => absurd hp List.not_mem_nil⟩
  | cons d ds ih =>
    obtain ⟨hfits, hle, htaken⟩ := h d List.mem_cons_self m hm
    obtain ⟨hfits', hle', htaken'⟩ := ih (fun e he => h e (List.mem_cons_of_mem _ he)) hfits
    rw [internAll]
    refine ⟨hfits', Nat.le_trans hle hle', List.forall_mem_cons.mpr ⟨?_, htaken'⟩⟩
    intro n hn
    exact Nat.lt_of_lt_of_le (htaken _ List.mem_cons_self n hn) hle'

theorem settles_plain {p : PropertyMapping} (h : p.embedded? = none) : (plain p).Settles := by
  intro m hm
  refine ⟨hm, Nat.le_refl _, ?_⟩
  intro q hq n hn
  rw [intern, List.mem_singleton] at hq
  rw [hq, h] at hn
  cases hn

theorem settles_of_read {fuel : Nat} {j : Json} {d : PropertyMappingDocument}
    (h : read fuel j = some d) : d.Settles := by
  induction fuel generalizing j d with
  | zero => cases h
  | succ fuel ih =>
    obtain ⟨⟨tag, document⟩, -, h⟩ := bind_eq_some.mp h
    simp only at h
    split at h
    · simp only [bind_eq_some, pure_eq_some] at h
      obtain ⟨r, -, p, -, source, -, target, -, enum, -, transform, -, explode, -, rfl⟩ := h
      exact settles_plain rfl
    · simp only [bind_eq_some, pure_eq_some] at h
      obtain ⟨r, -, p, -, source, -, target, -, enum, -, operation, -, rfl⟩ := h
      exact settles_plain rfl
    · simp only [bind_eq_some, pure_eq_some, list_eq] at h
      obtain ⟨r, -, ⟨owner, property⟩, -, source, -, id, -, target, -, root, -, properties, hps, rfl⟩ :=
        h
      have hall : ∀ d ∈ properties, d.Settles := by
        intro d hd
        obtain ⟨i, hi⟩ := mem_of_list hps d hd
        exact ih hi
      intro m hm
      obtain ⟨hfits, hle, htaken⟩ := settles_all hall hm
      rw [intern]
      dsimp only
      rw [length_addSlot]
      refine ⟨hfits.addSlot ⟨?_, fun _ => rfl, fun a ha => absurd ha List.not_mem_nil⟩,
        Nat.le_succ_of_le hle, ?_⟩
      · intro n hn
        simp only [SetImplementation.inner, SetImplementation.properties, List.append_nil,
          List.mem_filterMap] at hn
        obtain ⟨p, hp, hn⟩ := hn
        exact htaken p hp n hn
      · intro p hp n hn
        rw [List.mem_singleton] at hp
        rw [hp] at hn
        cases hn
        rw [length_addSlot]
        exact Nat.lt_succ_self _
    · cases h

theorem settles_of_list {o : Option Json} {ds : List PropertyMappingDocument}
    (h : readDefault [] (list? ofJson?) o = some ds) : ∀ d ∈ ds, d.Settles := by
  intro d hd
  obtain ⟨i, hi⟩ := mem_of_list h d hd
  exact settles_of_read hi

end PropertyMappingDocument

namespace ClassMappingDocument

open Mapping PropertyMappingDocument

/-- A document spread over a mapping that fits leaves one that fits, and a set implementation that
fits the next slot. -/
def Settles (d : ClassMappingDocument) : Prop :=
  ∀ {m m' s}, m.Fits → d.intern m = .ok (s, m') →
    m'.Fits ∧ m.slots.length ≤ m'.slots.length ∧ s.Fits m'.slots.length

theorem fits_of_taken {s : SetImplementation} {ps : List PropertyMapping} {m : Mapping}
    (hp : s.properties = ps) (ha : s.kind.aggregates = [])
    (hi : s.inner = s.properties.filterMap PropertyMapping.embedded?)
    (he : s.kind.isEmbedded = false) (ht : Taken ps m) : s.Fits m.slots.length where
  inner n hn := by
    rw [hi, hp, List.mem_filterMap] at hn
    obtain ⟨p, hp, hn⟩ := hn
    exact ht p hp n hn
  explicit h := by
    rw [he] at h
    cases h
  bounded a h := by
    rw [ha] at h
    cases h

theorem settles_aggregates {as : List (Nat × AggregationSpecification × ClassMappingDocument)}
    (h : ∀ a ∈ as, a.1 < UInt64.size ∧ a.2.2.Settles) {m m' : Mapping} {aggregates : List Aggregate}
    (hm : m.Fits) (hi : internAggregates as m = .ok (aggregates, m')) :
    m'.Fits ∧ m.slots.length ≤ m'.slots.length ∧
      ∀ a ∈ aggregates, a.index < UInt64.size ∧ a.slot < m'.slots.length := by
  induction as generalizing m aggregates with
  | nil =>
    cases hi
    exact ⟨hm, Nat.le_refl _, fun a ha => absurd ha List.not_mem_nil⟩
  | cons a as ih =>
    obtain ⟨index, specification, d⟩ := a
    obtain ⟨s, inner, rest, hd, hr, rfl⟩ := internAggregates_cons_eq_ok hi
    obtain ⟨hindex, hsettles⟩ := h _ List.mem_cons_self
    obtain ⟨hfits, hle, hs⟩ := hsettles hm hd
    obtain ⟨hfits', hle', hrest⟩ :=
      ih (fun b hb => h b (List.mem_cons_of_mem _ hb)) (hfits.addSlot hs) hr
    rw [length_addSlot] at hle'
    refine ⟨hfits', by omega, List.forall_mem_cons.mpr ⟨⟨hindex, hle'⟩, hrest⟩⟩

/-- An aggregation holds the slots of its main class mapping, of its aggregates and of its
properties, all of which are taken before it. -/
theorem settles_aggregationAware {header : ClassMappingHeader} {main : ClassMappingDocument}
    {as : List (Nat × AggregationSpecification × ClassMappingDocument)}
    {properties : List PropertyMappingDocument} (hmain : main.Settles)
    (ha : ∀ a ∈ as, a.1 < UInt64.size ∧ a.2.2.Settles) (hp : ∀ d ∈ properties, d.Settles) :
    (aggregationAware header main as properties).Settles := by
  intro m m' s hm hi
  obtain ⟨inner, mMain, aggregates, mAggregates, hmi, has, rfl, rfl⟩ :=
    intern_aggregationAware_eq_ok hi
  obtain ⟨hfits, hle, hinner⟩ := hmain hm hmi
  obtain ⟨hfits', hle', haggregates⟩ := settles_aggregates ha (hfits.addSlot hinner) has
  obtain ⟨hfits'', hle'', htaken⟩ := settles_all hp hfits'
  rw [length_addSlot] at hle'
  refine ⟨hfits'', by omega, ?_, fun h => Bool.noConfusion h, fun a ha => (haggregates a ha).1⟩
  intro n hn
  rcases List.mem_append.mp hn with hn | hn
  · obtain ⟨p, hp, hn⟩ := List.mem_filterMap.mp hn
    exact htaken p hp n hn
  rcases List.mem_cons.mp hn with rfl | hn
  · omega
  · obtain ⟨a, ha, rfl⟩ := List.mem_map.mp hn
    exact Nat.lt_of_lt_of_le (haggregates a ha).2 hle''

theorem settles_of_read {fuel : Nat} {nested : Bool} {j : Json} {d : ClassMappingDocument}
    (h : read fuel nested j = some d) : d.Settles := by
  induction fuel generalizing nested j d with
  | zero => cases h
  | succ fuel ih =>
    obtain ⟨⟨tag, document⟩, -, h⟩ := bind_eq_some.mp h
    simp only at h
    intro m m' s hm hi
    split at h
    · simp only [bind_eq_some, pure_eq_some, list_eq] at h
      obtain ⟨r, -, header, -, source, -, filter, -, properties, hp, rfl⟩ := h
      obtain ⟨hfits, hle, htaken⟩ := settles_all (settles_of_list hp) hm
      rw [intern] at hi
      cases hi
      exact ⟨hfits, hle, fits_of_taken rfl rfl (List.append_nil _) rfl htaken⟩
    · simp only [bind_eq_some, pure_eq_some, list_eq] at h
      obtain ⟨r, -, header, -, distinct, -, table, -, key, -, properties, hp, rfl⟩ := h
      obtain ⟨hfits, hle, htaken⟩ := settles_all (settles_of_list hp) hm
      rw [intern] at hi
      cases hi
      exact ⟨hfits, hle, fits_of_taken rfl rfl (List.append_nil _) rfl htaken⟩
    · change readAggregation fuel document = some d at h
      simp only [readAggregation, bind_eq_some, pure_eq_some, required_eq, list_eq] at h
      obtain ⟨r, -, header, -, main, hmain, aggregates, ha, properties, hp, rfl⟩ := h
      refine settles_aggregationAware ?_ ?_ (settles_of_list hp) hm hi
      · obtain ⟨i, -, hi⟩ := Option.bind_eq_some_iff.mp hmain
        exact ih hi
      · intro a hmem
        obtain ⟨i, hi⟩ := mem_of_list ha a hmem
        simp only [readAggregate, bind_eq_some, pure_eq_some] at hi
        obtain ⟨t, -, number, hn, specification, -, d, hd, rfl⟩ := hi
        obtain ⟨i, -, hi⟩ := Option.bind_eq_some_iff.mp hd
        obtain ⟨i, -, hn⟩ := Option.bind_eq_some_iff.mp hn
        exact ⟨Nat.lt_trans (lt_of_nat32? hn) (by decide), ih hi⟩
    · simp only [bind_eq_some, pure_eq_some, texts_eq] at h
      obtain ⟨r, -, header, -, name, -, parameters, -, rfl⟩ := h
      obtain ⟨o, -, rfl, rfl⟩ := intern_operation_eq_ok hi
      exact ⟨hm, Nat.le_refl _, fits_of_taken rfl rfl rfl rfl taken_nil⟩
    · cases h

end ClassMappingDocument

theorem SourceValue.isBounded_of_read {j : Json} {s : SourceValue} (h : ofJson? j = some s) :
    s.IsBounded := by
  obtain ⟨⟨tag, document⟩, -, h⟩ := bind_eq_some.mp h
  simp only at h
  split at h
  · simp only [bind_eq_some, pure_eq_some] at h
    obtain ⟨r, -, value, -, rfl⟩ := h
    trivial
  · simp only [bind_eq_some, pure_eq_some, required_eq] at h
    obtain ⟨r, -, value, hv, rfl⟩ := h
    obtain ⟨i, -, hv⟩ := Option.bind_eq_some_iff.mp hv
    obtain ⟨-, hlow, hhigh⟩ := intBetween?_eq_some.mp hv
    exact ⟨hlow, Int.lt_of_le_of_lt hhigh (by decide)⟩
  · simp only [bind_eq_some, pure_eq_some] at h
    obtain ⟨r, -, enumeration, -, value, -, rfl⟩ := h
    trivial
  · cases h

theorem EnumerationMapping.isBounded_of_read {j : Json} {m : EnumerationMapping}
    (h : ofJson? j = some m) : m.IsBounded := by
  simp only [ofJson?, bind_eq_some, pure_eq_some, list_eq] at h
  obtain ⟨r, -, id, -, enumeration, -, values, hvalues, rfl⟩ := h
  intro v hv s hs
  obtain ⟨i, hi⟩ := mem_of_list hvalues v hv
  simp only [EnumValueMapping.ofJson?, bind_eq_some, pure_eq_some, list_eq] at hi
  obtain ⟨t, -, enumValue, -, sources, hsources, rfl⟩ := hi
  obtain ⟨k, hk⟩ := mem_of_list hsources s hs
  exact SourceValue.isBounded_of_read hk

namespace Entry

variable {r : Registry} {path : Path} {m m' : Mapping}

theorem fits_of_classMapping {j : Json} {s : SetImplementation}
    (h : classMapping r path j m = .ok (s, m')) (hm : m.Fits) :
    m'.Fits ∧ s.Fits m'.slots.length := by
  simp only [classMapping] at h
  split at h
  · obtain ⟨d, hd, h⟩ := bind_eq_ok.mp h
    obtain ⟨hfits, -, hs⟩ :=
      ClassMappingDocument.settles_of_read (require_eq_ok.mp hd) hm (ok_of_mapError h)
    exact ⟨hfits, hs⟩
  · split at h
    · cases h
    · obtain ⟨header, -, h⟩ := bind_eq_ok.mp h
      obtain ⟨content, -, h⟩ := bind_eq_ok.mp h
      cases h
      exact ⟨hm, ClassMappingDocument.fits_of_taken rfl rfl rfl rfl
        PropertyMappingDocument.taken_nil⟩

theorem fits_of_addClassMappings {js : List Json} (h : addClassMappings r path js m = .ok m')
    (hm : m.Fits) : m'.Fits := by
  induction js generalizing m with
  | nil =>
    cases h
    exact hm
  | cons j js ih =>
    obtain ⟨⟨s, inner⟩, hj, h⟩ := bind_eq_ok.mp h
    obtain ⟨hinner, hs⟩ := fits_of_classMapping hj hm
    exact ih h (hinner.addTop hs)

theorem fits_of_mapping {j : Json} (h : mapping r path j = .ok m) :
    m.Fits ∧ ∀ e ∈ m.enumerationMappings, e.IsBounded := by
  obtain ⟨d, hd, h⟩ := bind_eq_ok.mp h
  obtain ⟨built, hb, h⟩ := bind_eq_ok.mp h
  cases h
  have hd := require_eq_ok.mp hd
  simp only [MappingDocument.ofJson?, bind_eq_some, pure_eq_some, list_eq] at hd
  obtain ⟨t, -, includes, -, classMappings, -, enumerationMappings, he, rfl⟩ := hd
  have hfits : built.Fits := fits_of_addClassMappings hb (Mapping.fits_empty includes)
  refine ⟨hfits, fun e hmem => ?_⟩
  obtain ⟨i, hi⟩ := mem_of_list he e hmem
  exact EnumerationMapping.isBounded_of_read hi

end Entry
end ModelGraph
