import ModelGraph.Proofs.ReportedCodes
import ModelGraph.Proofs.WiredMappings

namespace ModelGraph.Graph

variable {g : Graph} {h : Handle} {id : String}

/-- A mapping, or one that it includes, has an enumeration mapping of an id. -/
def CarriesEnumerationId (g : Graph) (h : Handle) (id : String) : Prop :=
  ∃ k m, g.IncludesAll h k ∧ g.mapping? k = some m ∧ ∃ x ∈ m.enumerationMappings, x.id.value = id

/-- A property mapping names an enumeration mapping by id. What is nested in a set implementation
has slots of its own, so the property mapping may stand at any depth. -/
def NamesEnumerationId (g : Graph) (h : Handle) (id : String) : Prop :=
  ∃ m, g.mapping? h = some m ∧ ∃ s ∈ m.slots, ∃ p ∈ s.properties, p.enumerationMapping = some id

theorem mem_ownEnumerationMappings {k : Handle} {e : EnumerationMappingHandle} :
    e ∈ g.ownEnumerationMappings k ↔
      e.mapping = k ∧ ∃ m, g.mapping? k = some m ∧ e.index < m.enumerationMappings.length := by
  obtain ⟨k', i⟩ := e
  rw [ownEnumerationMappings]
  cases g.mapping? k with
  | none => simp
  | some m => simp [and_comm, eq_comm]

/-- An enumeration mapping that is looked up by id is one of that id, of the mapping or of one that
it includes. -/
theorem carries_of_enumerationMappingById {t : EnumerationMappingHandle}
    (ht : g.enumerationMappingById h id = .ok t) :
    g.IncludesAll h t.mapping ∧ ∃ x, g.enumerationMapping? t = some x ∧ x.id.value = id := by
  rw [enumerationMappingById] at ht
  split at ht
  next e he =>
    cases ht
    obtain ⟨k, hk, hmem⟩ := List.mem_flatMap.mp (List.mem_of_find?_eq_some he)
    obtain ⟨rfl, -⟩ := mem_ownEnumerationMappings.mp hmem
    have hid := List.find?_some he
    obtain ⟨x, hx, hid⟩ := (Option.any_eq_true _ _).mp hid
    exact ⟨includesAll_of_mem_sources hk, x, hx, eq_of_beq hid⟩
  · cases ht

theorem enumerationMappingById_of_carries (ha : ∀ k, g.isDeleted k = false)
    (hc : g.CarriesEnumerationId h id) : ∃ t, g.enumerationMappingById h id = .ok t := by
  obtain ⟨k, m, hk, hm, x, hx, hid⟩ := hc
  obtain ⟨i, hi⟩ := List.getElem?_of_mem hx
  have hopen : g.IncludesOpen h k := hk.lift (fun k => k) fun _ _ hb =>
    List.mem_filter.mpr ⟨hb, by simp [ha]⟩
  have hmem : (⟨k, i⟩ : EnumerationMappingHandle) ∈ g.allEnumerationMappings h :=
    List.mem_flatMap.mpr ⟨k, mem_sources.mpr hopen,
      mem_ownEnumerationMappings.mpr ⟨rfl, m, hm, (List.getElem?_eq_some_iff.mp hi).1⟩⟩
  rw [enumerationMappingById]
  split
  next t _ => exact ⟨t, rfl⟩
  next hf =>
    have hnot := List.find?_eq_none.mp hf _ hmem
    simp [enumerationMapping?, hm, hi, hid] at hnot

theorem enumerationMappingById_of_not_carries (hc : ¬g.CarriesEnumerationId h id) :
    g.enumerationMappingById h id = .error (.enumerationMappingNotFound id (g.pathOf h)) := by
  cases ht : g.enumerationMappingById h id with
  | ok t =>
    obtain ⟨hk, x, hx, hid⟩ := carries_of_enumerationMappingById ht
    obtain ⟨m, hm, hx⟩ := Option.bind_eq_some_iff.mp hx
    exact absurd ⟨t.mapping, m, hk, hm, x, List.mem_of_getElem? hx, hid⟩ hc
  | error fault =>
    rw [enumerationMappingById] at ht
    split at ht
    · cases ht
    · exact ht.symm

theorem Finished.isDeleted_eq_false {contents : List (Path × Body)} {g₁ : Graph}
    (f : Finished contents g₁ g) (k : Handle) : g.isDeleted k = false := by
  rw [isDeleted]
  cases he : g.element? k with
  | none => rfl
  | some e =>
    obtain ⟨e₁, he₁, hplace⟩ := f.keeps_place.symm.element? he
    have hdeleted : e₁.deleted = e.deleted := congrArg ElementPlace.deleted hplace
    rw [Option.any_some, ← hdeleted, f.stocked.allAlive k e₁ he₁]

/-- No build reports that an enumeration mapping is missing, whatever its model names. In a graph
that is built the look-up by id tells: it finds an enumeration mapping of the id if the mapping or
one that it includes has one, and else fails. -/
theorem enumerationIds_unchecked {r : Registry} {freeze : Bool} {model : Model} :
    (∀ ds, build r freeze model = .error ds → ∀ d ∈ ds,
      d.code ≠ some .enumerationMappingNotFound) ∧
    ∀ g, build r freeze model = .ok g → ∀ h id,
      (g.CarriesEnumerationId h id → ∃ t x, g.enumerationMappingById h id = .ok t ∧
        g.IncludesAll h t.mapping ∧ g.enumerationMapping? t = some x ∧ x.id.value = id) ∧
      (¬g.CarriesEnumerationId h id →
        g.enumerationMappingById h id = .error (.enumerationMappingNotFound id (g.pathOf h))) := by
  constructor
  · intro ds hb d hd hcode
    obtain ⟨codes, hcodes, hamong⟩ := code_of_build hb
    obtain ⟨c, hc, heq⟩ := hamong d hd
    cases heq.symm.trans hcode
    exact absurd hc ((by decide : ∀ codes ∈ phaseCodes, .enumerationMappingNotFound ∉ codes)
      codes hcodes)
  · intro g hb h id
    refine ⟨fun hc => ?_, enumerationMappingById_of_not_carries⟩
    obtain ⟨entries, contents, g₁, p⟩ := prepared_of_build hb
    have f := p.finished hb
    obtain ⟨t, ht⟩ := enumerationMappingById_of_carries f.isDeleted_eq_false hc
    obtain ⟨hk, x, hx, hid⟩ := carries_of_enumerationMappingById ht
    exact ⟨t, x, ht, hk, hx, hid⟩

/-- A mapping with one enumeration mapping and a property mapping that names another one. -/
def codedMapping : Mapping where
  enumerationMappings := [{ id := .explicit "kinds", enumeration := .bound ⟨"Kind"⟩ ⟨13⟩ }]
  slots := [
    { id := .explicit "party", target := .bound ⟨"Party"⟩ ⟨12⟩
      kind := .pureInstance none none
        [{ owner := .bound ⟨"Party"⟩ ⟨12⟩, property := "kind", enumerationMapping := some "missing"
           kind := .pure (.str "kind") none }] }]
  top := [0]

def codedModel : Model := [
  partyEntity [("properties", .arr [.obj [("multiplicity", .obj [("lowerBound", .ofNat 1)]),
    ("name", .str "kind"), ("type", .str "Kind")]])],
  { path := ⟨"Kind"⟩
    classifier := "meta::pure::metamodel::type::Enumeration"
    content := .obj [("_type", .str "Enumeration"), ("name", .str "Kind")] },
  { path := ⟨"M"⟩
    classifier := "meta::pure::mapping::Mapping"
    content := .obj [("_type", .str "mapping"), ("classMappings", .arr [.obj [
      ("_type", .str "pureInstance"), ("class", .str "Party"), ("id", .str "party"),
      ("propertyMappings", .arr [.obj [("_type", .str "purePropertyMapping"),
        ("enumMappingId", .str "missing"),
        ("property", .obj [("class", .str "Party"), ("property", .str "kind")]),
        ("transform", .str "kind")]])]]),
      ("enumerationMappings", .arr [.obj [("enumeration", .str "Kind"), ("id", .str "kinds")]]),
      ("name", .str "M")] }]

def codedGraph : Graph :=
  ((((new Preset.full).create ⟨"Party"⟩ (.class { properties := [
    { name := "kind", multiplicity := ⟨1, none⟩, type := .bound ⟨"Kind"⟩ ⟨13⟩ }] })).1.create
      ⟨"Kind"⟩ (.enumeration {})).1.create ⟨"M"⟩ (.mapping codedMapping)).1

theorem build_coded : build Preset.full false codedModel = .ok codedGraph := rfl

def strayEntity : Entity where
  path := ⟨"Stray"⟩
  classifier := "Stray"
  content := .null

/-- The look-up in such a mapping, and what is reported of an entity that is nothing known. -/
theorem enumerationIds_unchecked_coded : build Preset.full false codedModel = .ok codedGraph ∧
    (∃ t x, codedGraph.enumerationMappingById ⟨14⟩ "kinds" = .ok t ∧
      codedGraph.IncludesAll ⟨14⟩ t.mapping ∧ codedGraph.enumerationMapping? t = some x ∧
      x.id.value = "kinds") ∧
    ∃ ds, build Preset.full false [strayEntity] = .error ds ∧
      ∀ d ∈ ds, d.code ≠ some .enumerationMappingNotFound := by
  have hcarries : codedGraph.CarriesEnumerationId ⟨14⟩ "kinds" :=
    ⟨⟨14⟩, codedMapping, .refl, rfl, _, List.mem_cons_self, rfl⟩
  have hstray : build Preset.full false [strayEntity] =
    .error [Entry.unknownClassifier strayEntity] := rfl
  exact ⟨build_coded, (enumerationIds_unchecked.2 codedGraph build_coded ⟨14⟩ "kinds").1 hcarries,
    _, hstray, enumerationIds_unchecked.1 _ hstray⟩

theorem build_enumerationId_missing : ∃ g, build Preset.full false codedModel = .ok g ∧
    g.NamesEnumerationId ⟨14⟩ "missing" ∧ ¬g.CarriesEnumerationId ⟨14⟩ "missing" := by
  refine ⟨codedGraph, build_coded, ⟨codedMapping, rfl, _, List.mem_cons_self, _,
    List.mem_cons_self, rfl⟩, fun hc => ?_⟩
  obtain ⟨entries, contents, g₁, p⟩ := prepared_of_build build_coded
  have f := p.finished build_coded
  obtain ⟨t, ht⟩ := enumerationMappingById_of_carries f.isDeleted_eq_false hc
  have hmissing : codedGraph.enumerationMappingById ⟨14⟩ "missing" =
    .error (.enumerationMappingNotFound "missing" ⟨"M"⟩) := rfl
  rw [hmissing] at ht
  cases ht

end ModelGraph.Graph
