import Mathlib.Data.List.Duplicate
import ModelGraph.Proofs.BoundReferences
import ModelGraph.Proofs.BoundedBodies
import ModelGraph.Proofs.WiredLookups

namespace ModelGraph

namespace Mapping

/-- The slots embedded in the property mappings of a slot. -/
def embeddedIn (m : Mapping) (index : Nat) : List Nat :=
  (m.slots[index]?.map fun s => s.properties.filterMap PropertyMapping.embedded?).getD []

/-- The slots at the top and those embedded below them. -/
inductive Listed (m : Mapping) : Nat → Prop where
  | top {i : Nat} (hi : i ∈ m.top) : Listed m i
  | embedded {i n : Nat} (outer : Listed m i) (hn : n ∈ m.embeddedIn i) : Listed m n

/-- The slots that are listed, and the main slots and aggregates of aggregations at the top. -/
inductive Addressable (m : Mapping) : Nat → Prop where
  | listed {i : Nat} (hi : m.Listed i) : Addressable m i
  | part {t i : Nat} {s : SetImplementation} {main : Nat} {aggregates : List Aggregate}
    {properties : List PropertyMapping} (ht : t ∈ m.top) (hs : m.slots[t]? = some s)
    (hk : s.kind = .aggregationAware main aggregates properties)
    (hi : i ∈ main :: aggregates.map Aggregate.slot) : Addressable m i

variable {m : Mapping}

/-- A search keeps what was found, and what it adds has all that is embedded in it found. -/
structure Completes (m : Mapping) (found result : List Nat) : Prop where
  kept : found ⊆ result
  closed : ∀ i ∈ result, i ∉ found → m.embeddedIn i ⊆ result

theorem Completes.refl (found : List Nat) : m.Completes found found :=
  ⟨fun _ hi => hi, fun _ hi hn => absurd hi hn⟩

theorem Completes.trans {found middle result : List Nat} (h : m.Completes found middle)
    (h' : m.Completes middle result) : m.Completes found result := by
  refine ⟨List.Subset.trans h.kept h'.kept, fun i hi hn => ?_⟩
  by_cases hm : i ∈ middle
  · exact List.Subset.trans (h.closed i hm hn) h'.kept
  · exact h'.closed i hi hm

def collectNext (m : Mapping) (fuel : Nat) (found : List Nat) (i : Nat) : List Nat :=
  if found.contains i then found else m.collectEmbedded fuel i (found ++ [i])

theorem collectEmbedded_succ (fuel index : Nat) (found : List Nat) :
    m.collectEmbedded (fuel + 1) index found =
      (m.embeddedIn index).foldl (m.collectNext fuel) found := by
  rw [collectEmbedded, embeddedIn]
  cases m.slots[index]? <;> rfl

theorem embeddedIn_lt (hm : m.Fits) {i n : Nat} (hn : n ∈ m.embeddedIn i) : n < i := by
  rw [embeddedIn] at hn
  cases hs : m.slots[i]? with
  | none =>
    rw [hs] at hn
    exact absurd hn List.not_mem_nil
  | some s =>
    rw [hs] at hn
    exact (hm hs).inner n (List.mem_append_left _ hn)

theorem embeddedIn_of_length_le {i : Nat} (hi : m.slots.length ≤ i) : m.embeddedIn i = [] := by
  rw [embeddedIn, List.getElem?_eq_none hi]
  rfl

theorem completes_collectEmbedded (hm : m.Fits) {fuel index : Nat} (hf : index < fuel)
    (found : List Nat) : m.Completes found (m.collectEmbedded fuel index found) ∧
      m.embeddedIn index ⊆ m.collectEmbedded fuel index found := by
  induction fuel generalizing index found with
  | zero => exact absurd hf (Nat.not_lt_zero index)
  | succ fuel ih =>
    rw [collectEmbedded_succ]
    have hslots : ∀ n ∈ m.embeddedIn index, n < fuel := by
      intro n hn
      have hlt := embeddedIn_lt hm hn
      omega
    generalize m.embeddedIn index = slots at hslots ⊢
    induction slots generalizing found with
    | nil => exact ⟨.refl found, List.nil_subset _⟩
    | cons i slots ihSlots =>
      have hnext : m.Completes found (m.collectNext fuel found i) ∧
          i ∈ m.collectNext fuel found i := by
        rw [collectNext]
        split
        next hc => exact ⟨.refl found, by simpa using hc⟩
        · obtain ⟨hcomplete, hembedded⟩ := ih (hslots i List.mem_cons_self) (found ++ [i])
          refine ⟨⟨fun n hn => hcomplete.kept (List.mem_append_left _ hn), fun n hn hne => ?_⟩,
            hcomplete.kept (List.mem_append_right _ (List.mem_singleton_self i))⟩
          by_cases hni : n = i
          · exact hni ▸ hembedded
          · exact hcomplete.closed n hn (by simp [hne, hni])
      obtain ⟨hrest, hsub⟩ := ihSlots (m.collectNext fuel found i)
        fun n hn => hslots n (List.mem_cons_of_mem _ hn)
      exact ⟨hnext.1.trans hrest, List.cons_subset.mpr ⟨hrest.kept hnext.2, hsub⟩⟩

theorem collectEmbedded_subset {P : Nat → Prop} (hP : ∀ i, P i → ∀ n ∈ m.embeddedIn i, P n)
    {fuel index : Nat} {found : List Nat} (hi : P index) (hf : ∀ i ∈ found, P i) :
    ∀ i ∈ m.collectEmbedded fuel index found, P i := by
  induction fuel generalizing index found with
  | zero => exact hf
  | succ fuel ih =>
    rw [collectEmbedded_succ]
    refine List.foldlRecOn (motive := fun found => ∀ i ∈ found, P i) _ _ hf fun found hf i hn => ?_
    have hi := hP index hi i hn
    rw [collectNext]
    split
    · exact hf
    · refine ih hi fun n hn => ?_
      rcases List.mem_append.mp hn with hn | hn
      · exact hf n hn
      · exact List.mem_singleton.mp hn ▸ hi

def collectAll (m : Mapping) (tops found : List Nat) : List Nat :=
  tops.foldl (fun found i => m.collectEmbedded (m.slots.length + 1) i found) found

theorem completes_collectAll (hm : m.Fits) (tops found : List Nat) :
    m.Completes found (m.collectAll tops found) ∧
      ∀ t ∈ tops, m.embeddedIn t ⊆ m.collectAll tops found := by
  induction tops generalizing found with
  | nil => exact ⟨.refl found, fun t ht => absurd ht List.not_mem_nil⟩
  | cons t tops ih =>
    have hfirst : m.Completes found (m.collectEmbedded (m.slots.length + 1) t found) ∧
        m.embeddedIn t ⊆ m.collectEmbedded (m.slots.length + 1) t found := by
      by_cases ht : t < m.slots.length
      · exact completes_collectEmbedded hm (Nat.lt_succ_of_lt ht) found
      · have hnone := embeddedIn_of_length_le (m := m) (Nat.le_of_not_lt ht)
        rw [collectEmbedded_succ, hnone]
        exact ⟨.refl found, List.nil_subset _⟩
    obtain ⟨hrest, htops⟩ := ih (m.collectEmbedded (m.slots.length + 1) t found)
    refine ⟨hfirst.1.trans hrest, List.forall_mem_cons.mpr ⟨?_, htops⟩⟩
    exact List.Subset.trans hfirst.2 hrest.kept

theorem collectAll_subset {P : Nat → Prop} (hP : ∀ i, P i → ∀ n ∈ m.embeddedIn i, P n)
    {tops found : List Nat} (ht : ∀ i ∈ tops, P i) (hf : ∀ i ∈ found, P i) :
    ∀ i ∈ m.collectAll tops found, P i :=
  List.foldlRecOn (motive := fun found => ∀ i ∈ found, P i) _ _ hf
    fun _ hf i hi => collectEmbedded_subset hP (ht i hi) hf

theorem mem_ownClassMappings (hm : m.Fits) {i : Nat} : i ∈ m.ownClassMappings ↔ m.Listed i := by
  change i ∈ m.collectAll m.top m.top ↔ m.Listed i
  constructor
  · exact collectAll_subset (fun i hi n hn => .embedded hi hn) (fun i => .top) (fun i => .top) i
  · obtain ⟨hcomplete, htops⟩ := completes_collectAll hm m.top m.top
    intro hi
    induction hi with
    | top hi => exact hcomplete.kept hi
    | @embedded i n _ hn ih =>
      by_cases ht : i ∈ m.top
      · exact htops i ht hn
      · exact hcomplete.closed i ih ht hn

theorem mem_aggregationSlots {i : Nat} : i ∈ m.aggregationSlots ↔
    ∃ t ∈ m.top, ∃ s main aggregates properties, m.slots[t]? = some s ∧
      s.kind = .aggregationAware main aggregates properties ∧
        i ∈ main :: aggregates.map Aggregate.slot := by
  have hparts : i ∈ m.aggregationSlots ↔
      ∃ a ∈ m.aggregations, i ∈ a.1 :: a.2.map Aggregate.slot := by
    simp only [aggregationSlots, List.mem_append, List.mem_map, List.mem_flatMap, List.mem_cons]
    constructor
    · rintro (⟨a, ha, rfl⟩ | ⟨a, ha, hi⟩)
      · exact ⟨a, ha, .inl rfl⟩
      · exact ⟨a, ha, .inr hi⟩
    · rintro ⟨a, ha, rfl | hi⟩
      · exact .inl ⟨a, ha, rfl⟩
      · exact .inr ⟨a, ha, hi⟩
  rw [hparts]
  constructor
  · rintro ⟨⟨main, aggregates⟩, ha, hi⟩
    rw [aggregations_eq, List.mem_filterMap] at ha
    obtain ⟨t, ht, ha⟩ := ha
    cases hs : m.slots[t]? with
    | none =>
      rw [hs] at ha
      cases ha
    | some s =>
      rw [hs] at ha
      change s.aggregation? = some (main, aggregates) at ha
      rw [SetImplementation.aggregation?] at ha
      split at ha
      next hk =>
        cases ha
        exact ⟨t, ht, s, main, aggregates, _, hs, hk, hi⟩
      · cases ha
  · rintro ⟨t, ht, s, main, aggregates, properties, hs, hk, hi⟩
    refine ⟨(main, aggregates), ?_, hi⟩
    rw [aggregations_eq, List.mem_filterMap]
    refine ⟨t, ht, ?_⟩
    rw [hs, Option.map_some, Option.bind_some, SetImplementation.slots,
      SetImplementation.aggregation?, hk]

theorem mem_named (hm : m.Fits) {i : Nat} : i ∈ m.named ↔ m.Addressable i := by
  rw [named, List.mem_append, mem_ownClassMappings hm, mem_aggregationSlots]
  constructor
  · rintro (hi | ⟨t, ht, s, main, aggregates, properties, hs, hk, hi⟩)
    · exact .listed hi
    · exact .part ht hs hk hi
  · intro hi
    cases hi with
    | listed hi => exact .inl hi
    | part ht hs hk hi => exact .inr ⟨_, ht, _, _, _, _, hs, hk, hi⟩

theorem ids_unwire (m : Mapping) : m.unwire.ids = m.ids := by
  rw [ids, unwire, List.map_map]
  rfl

end Mapping

namespace Graph

theorem mem_repeated {seen ids : List String} {id : String} :
    id ∈ repeated seen ids ↔ List.Duplicate id ids ∨ id ∈ seen ∧ id ∈ ids := by
  induction ids generalizing seen with
  | nil => simp [repeated]
  | cons x ids ih =>
    rw [repeated, List.duplicate_cons_iff]
    by_cases hx : id = x
    · subst hx
      by_cases hseen : id ∈ seen
      · simp [hseen]
      · simp [hseen, ih, or_comm]
    · have hx' : x ≠ id := fun h => hx h.symm
      by_cases hseen : x ∈ seen
      · simp [hseen, ih, hx, hx']
      · simp [hseen, ih, hx, hx']

theorem nodup_of_repeated {ids : List String} (h : repeated [] ids = []) : ids.Nodup := by
  rw [List.nodup_iff_forall_not_duplicate]
  intro id hid
  exact absurd (mem_repeated.mpr (.inl hid)) (h ▸ List.not_mem_nil)

variable {g : Graph} {h : Handle} {m : Mapping}

theorem mem_namedClassMappings {k : Handle} {s : SetHandle} : s ∈ g.namedClassMappings k ↔
    ∃ m, g.mapping? k = some m ∧ s.mapping = k ∧ s.index ∈ m.named := by
  rw [namedClassMappings_eq, mem_handlesOf]

/-- Where ids are told apart, a slot is found by its id in its own mapping exactly if it can be
named. -/
theorem classMappingById_own (hm : g.mapping? h = some m) (hids : m.ids.Nodup) {i : Nat}
    {s : SetImplementation} (hs : m.slots[i]? = some s) :
    g.classMappingById h s.id.value = .ok ⟨h, i⟩ ↔ i ∈ m.named := by
  let test (t : SetHandle) : Bool := (g.setImplementation? t).any (·.id.value == s.id.value)
  constructor
  · intro hfound
    rw [classMappingById] at hfound
    split at hfound
    next t ht =>
      cases hfound
      obtain ⟨k, -, hk⟩ := List.mem_flatMap.mp (List.mem_of_find?_eq_some ht)
      obtain ⟨m', hm', rfl, hi⟩ := mem_namedClassMappings.mp hk
      obtain rfl := Option.some.inj (hm'.symm.trans hm)
      exact hi
    · cases hfound
  · intro hi
    have hmem : (⟨h, i⟩ : SetHandle) ∈ g.namedClassMappings h :=
      mem_namedClassMappings.mpr ⟨m, hm, rfl, hi⟩
    have htest : test ⟨h, i⟩ = true := by
      simp [test, setImplementation?, hm, hs]
    -- the id belongs to no other slot of the mapping, and this one is searched first
    have hfirst : (g.namedClassMappings h).find? test = some ⟨h, i⟩ := by
      cases hf : (g.namedClassMappings h).find? test with
      | none => exact absurd htest (List.find?_eq_none.mp hf _ hmem)
      | some t =>
        obtain ⟨m', -, ht, -⟩ := mem_namedClassMappings.mp (List.mem_of_find?_eq_some hf)
        have hid := List.find?_some hf
        simp only [test, setImplementation?, ht, hm, Option.bind_some, Option.any_eq_true,
          beq_iff_eq] at hid
        obtain ⟨s', hs', hid⟩ := hid
        have hindex : m.ids[i]? = m.ids[t.index]? := by
          rw [Mapping.ids, List.getElem?_map, List.getElem?_map, hs, hs', Option.map_some,
            Option.map_some, hid]
        have hlt : i < m.ids.length := by
          rw [Mapping.ids, List.length_map]
          exact (List.getElem?_eq_some_iff.mp hs).1
        have hti := (List.getElem?_inj hlt hids).mp hindex
        obtain ⟨tm, ti⟩ := t
        cases ht
        cases hti
        rfl
    have hall : ((g.sources h).flatMap g.namedClassMappings).find? test = some ⟨h, i⟩ := by
      rw [sources, List.flatMap_cons, List.find?_append, hfirst]
      rfl
    rw [classMappingById, hall]

theorem ids_nodup_of_build {r : Registry} {freeze : Bool} {model : Model}
    (hb : build r freeze model = .ok g) {e : Element} (hl : g.LiveAt h e)
    (hm : e.body = .mapping m) : m.ids.Nodup := by
  obtain ⟨entries, contents, g₁, p⟩ := prepared_of_build hb
  rw [p.build_eq] at hb
  have keeps := keeps_of_conclude hb
  obtain ⟨hfaults, -⟩ := conclude_eq_ok.mp hb
  obtain ⟨e', hl', -, hu⟩ := keeps.symm.liveAt_unwired hl
  rw [hm] at hu
  obtain ⟨m', hm', hu⟩ := Body.exists_mapping_of_unwire hu
  have hnodup := ((allWiringFaults_eq_nil p.bound.rostered).mp hfaults h e' m' hl' hm').1
  have hids : m'.ids = m.ids := by rw [← m'.ids_unwire, hu, m.ids_unwire]
  exact hids ▸ nodup_of_repeated hnodup

/-- A set implementation of a built graph is found by its id exactly if its slot is listed or is a
part of an aggregation at the top. -/
theorem addressable_iff {r : Registry} {freeze : Bool} {model : Model}
    (hb : build r freeze model = .ok g) {e : Element} (hl : g.LiveAt h e)
    (hm : e.body = .mapping m) {i : Nat} {s : SetImplementation} (hs : m.slots[i]? = some s) :
    g.classMappingById h s.id.value = .ok ⟨h, i⟩ ↔ m.Addressable i := by
  obtain ⟨entries, contents, g₁, p⟩ := prepared_of_build hb
  have hbounded := p.isBounded_live hb hl
  rw [hm] at hbounded
  rw [classMappingById_own (mapping?_of_live hl hm) (ids_nodup_of_build hb hl hm) hs,
    Mapping.mem_named hbounded.1]

/-- An aggregation with a set implementation embedded in its main class mapping. -/
def partedMapping : Mapping where
  slots := [
    { id := .explicit "inner", target := .bound ⟨"Party"⟩ ⟨12⟩, kind := .embedded [] },
    { id := .explicit "main", target := .bound ⟨"Party"⟩ ⟨12⟩
      kind := .pureInstance none none
        [{ owner := .bound ⟨"Party"⟩ ⟨12⟩, property := "p", kind := .embedded 0
           producer := some ⟨⟨13⟩, 0⟩ }] },
    { id := .explicit "all", target := .bound ⟨"Party"⟩ ⟨12⟩, kind := .aggregationAware 1 [] [] }]
  top := [2]

def partedEntity : Entity where
  path := ⟨"M"⟩
  classifier := "meta::pure::mapping::Mapping"
  content := .obj [("_type", .str "mapping"), ("classMappings", .arr [.obj [
    ("_type", .str "aggregationAware"), ("class", .str "Party"), ("id", .str "all"),
    ("mainSetImplementation", .obj [("_type", .str "pureInstance"), ("class", .str "Party"),
      ("id", .str "main"), ("propertyMappings", .arr [.obj [
        ("_type", .str "embeddedPropertyMapping"), ("class", .str "Party"), ("id", .str "inner"),
        ("property", .obj [("class", .str "Party"), ("property", .str "p")])]])])]]),
    ("name", .str "M")]

def partedGraph : Graph :=
  (((new Preset.full).create ⟨"Party"⟩ (.class {})).1.create ⟨"M"⟩ (.mapping partedMapping)).1

theorem build_parted :
    build Preset.full false [partyEntity [], partedEntity] = .ok partedGraph := rfl

theorem live_parted : partedGraph.LiveAt ⟨13⟩ (.placed ⟨"M"⟩ (.mapping partedMapping)) := ⟨rfl, rfl⟩

theorem addressable_iff_main : partedMapping.slots[1]?.map (·.id.value) = some "main" ∧
    partedMapping.Addressable 1 ∧
      partedGraph.classMappingById ⟨13⟩ "main" = .ok ⟨⟨13⟩, 1⟩ := by
  have hpart : partedMapping.Addressable 1 := .part (t := 2) (by decide) rfl rfl (by decide)
  exact ⟨rfl, hpart, (addressable_iff build_parted live_parted rfl (i := 1) rfl).mpr hpart⟩

/-- What is embedded in the main class mapping is not, though its id is no other's. -/
theorem classMappingById_embeddedInPart : ∃ g e m s,
    build Preset.full false [partyEntity [], partedEntity] = .ok g ∧ g.LiveAt ⟨13⟩ e ∧
      e.body = .mapping m ∧ m.slots[0]? = some s ∧ s.id.value = "inner" ∧
      g.classMappingById ⟨13⟩ s.id.value = .error (.classMappingNotFound "inner" ⟨"M"⟩) :=
  ⟨partedGraph, _, partedMapping, _, build_parted, live_parted, rfl, rfl, rfl, rfl⟩

end Graph
end ModelGraph
