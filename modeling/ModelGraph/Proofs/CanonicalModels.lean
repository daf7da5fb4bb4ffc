import ModelGraph.Diff
import ModelGraph.Proofs.CanonicalEntities
import ModelGraph.Proofs.EntityOrder
import ModelGraph.Proofs.MirroredIds
import ModelGraph.Proofs.RebuiltDigests

namespace ModelGraph

/-- The associations of the model come by ascending path. -/
def Model.AssociationsAscend (m : Model) : Prop :=
  (m.filter (·.classifier == Classifier.association.path)).Pairwise
    fun v w => v.path.text ≤ w.path.text

theorem Body.moved_refl (b : Body) : b.Moved id b where
  outline := by rw [Naming.along_id, rebind_path]
  links l hl := ⟨l, hl, rfl, rfl⟩

namespace Graph

variable {g g' g₁ g₁' : Graph} {r : Registry} {m m' : Model} {entries entries' : List Entry}
  {contents contents' : List (Path × Body)}

theorem relocates_of_perm (s : Stocked contents g) (hp : contents.Perm contents') :
    Relocates id contents contents' where
  carries := s.carries_id
  sent _ b hb := ⟨b, hp.mem_iff.mp hb, b.moved_refl⟩
  came q b hb := ⟨q, b, hp.mem_iff.mpr hb, rfl, b.moved_refl⟩

theorem Prepared.of_contents (p : Prepared r m entries contents g)
    (hc : checkModel r m' = .ok entries')
    (hcontents' : entries'.mapM (Entry.content r) = .ok contents') (hp : contents.Perm contents') :
    ∃ g', Prepared r m' entries' contents' g' := by
  obtain ⟨contents₀, h₀, hcompatible⟩ :=
    (register_eq_nil (checkModel_eq_ok.mpr ⟨p.entities, p.nodup, p.passes⟩)).mp
      (congrArg Prod.snd p.registered)
  obtain rfl := Except.ok.inj (h₀.symm.trans p.contents_eq)
  have hd := (register_eq_nil hc).mpr ⟨contents', hcontents', hcompatible.perm hp⟩
  obtain ⟨contents₁, h₁, s', -⟩ := (stocked_new r).register hd
  rw [registry_new] at h₁
  obtain rfl := Except.ok.inj (h₁.symm.trans hcontents')
  obtain ⟨hentities, hnodup, hpasses⟩ := checkModel_eq_ok.mp hc
  exact ⟨_, hentities, hnodup, hpasses, hcontents', Prod.ext rfl hd, s',
    p.stocked.resolved_of_perm s' hp p.resolved⟩

theorem Prepared.ascending_associations (hr : r.Lawful) (p : Prepared r m entries contents g)
    (ha : m.AssociationsAscend) :
    (contentPaths contents .association).Pairwise fun p q => p.text ≤ q.text := by
  rw [Model.AssociationsAscend, List.pairwise_filter, ← p.entities, List.pairwise_map] at ha
  rw [contentPaths, List.pairwise_map, List.pairwise_filter]
  have hpasses : entries.Pairwise fun e d => e.Passes r ∧ d.Passes r :=
    List.Pairwise.imp_of_mem (fun he hd _ => ⟨p.passes _ he, p.passes _ hd⟩) ha
  have hclassifier : ∀ {e : Entry} {c : Path × Body}, e.Passes r → e.content r = .ok c →
      (c.2.kind == Kind.association) = true →
      (e.entity.classifier == Classifier.association.path) = true := by
    intro e c he hcontent hk
    have hkind := Entry.kind_body hr he (Entry.content_eq_ok.mp hcontent).1
    have hnamed := EntryKind.classifier?_kind hr he.kind
    rw [← hkind, eq_of_beq hk] at hnamed
    exact beq_iff_eq.mpr (Option.some.inj hnamed).symm
  refine pairwise_of_mapM_ok p.contents_eq (hpasses.and ha) ?_
  rintro e d c c' ⟨⟨he, hd⟩, hle⟩ hcontent hcontent' hk hk'
  have hle := hle (hclassifier he hcontent hk) (hclassifier hd hcontent' hk')
  rwa [(Entry.content_eq_ok.mp hcontent).2, (Entry.content_eq_ok.mp hcontent').2] at hle

theorem Prepared.canonical {ps : List Preset} (hr : Preset.registry ps = .ok r)
    (p : Prepared r m entries contents g) (h : ∀ e ∈ m, e.IsTrimmable r) :
    ∃ entries' contents' g', Prepared r m.canonical entries' contents' g' ∧
      contents.Perm contents' := by
  have htrimmable : ∀ e ∈ entries, e.entity.IsTrimmable r := fun e he =>
    h e.entity (p.entities ▸ List.mem_map_of_mem he)
  have hc : checkModel r (m.map Entity.canonical) = .ok (entries.map Entry.canonical) := by
    refine checkModel_eq_ok.mpr ⟨?_, ?_, ?_⟩
    · rw [← p.entities, List.map_map, List.map_map]
      rfl
    · rw [List.map_map]
      exact p.nodup
    · intro e he
      obtain ⟨d, hd, rfl⟩ := List.mem_map.mp he
      exact (p.passes d hd).canonical (htrimmable d hd)
  have hcontents : (entries.map Entry.canonical).mapM (Entry.content r) = .ok contents := by
    rw [mapM_eq_ok, List.map_map, ← mapM_eq_ok.mp p.contents_eq]
    refine List.map_congr_left fun e he => ?_
    obtain ⟨c, hcontent⟩ := exists_of_mapM_ok p.contents_eq e he
    obtain ⟨hbody, hpath⟩ := Entry.content_eq_ok.mp hcontent
    have hbody' := Entry.body_canonical hr (p.passes e he) (htrimmable e he) hbody
    exact (Entry.content_eq_ok.mpr ⟨hbody', hpath⟩).trans hcontent.symm
  have hsorted : (m.map Entity.canonical).Perm m.canonical := (List.mergeSort_perm _ _).symm
  obtain ⟨entries', hc', hentries⟩ := checkModel_of_perm hsorted hc
  obtain ⟨contents', hcontents', hp⟩ := mapM_ok_of_perm (hentries.map _) hcontents
  obtain ⟨g', p'⟩ := p.of_contents hc' hcontents' hp
  exact ⟨entries', contents', g', p', hp⟩

/-- The canonical form of a model that is built is built to a graph of the same hash index, or fails
for nothing but ids of class mappings that are not found. It is built where the associations of the
model come by ascending path. -/
theorem build_canonical {ps : List Preset} (hr : Preset.registry ps = .ok r) {freeze : Bool}
    (hb : build r freeze m = .ok g) (h : ∀ e ∈ m, e.IsTrimmable r) :
    (∀ freeze' g', build r freeze' m.canonical = .ok g' →
      ∃ index, g.hashIndex.2 = .ok index ∧ g'.hashIndex.2 = .ok index) ∧
    (∀ freeze' ds, build r freeze' m.canonical = .error ds →
      ∀ d ∈ ds, d.code = some .classMappingNotFound) ∧
    (m.AssociationsAscend → ∀ freeze', ∃ g', build r freeze' m.canonical = .ok g') := by
  obtain ⟨entries, contents, g₁, p⟩ := prepared_of_build hb
  obtain ⟨entries', contents', g₁', p', hp⟩ := p.canonical hr h
  have t := relocates_of_perm p.stocked hp
  have hids : ∀ q b b', (q, b) ∈ contents → (id q, b') ∈ contents' → b'.ids? = b.ids? := by
    intro q b b' hc hc'
    rw [p.stocked.unique (.content hc) (.content (hp.mem_iff.mpr hc'))]
  have hcopies := p.bound.copies_relocated p'.bound t hids
  have hbuilt := hb
  rw [p.build_eq] at hbuilt
  obtain ⟨hwiring, hvalid, -⟩ := conclude_eq_ok.mp hbuilt
  have hvalid' := (p.wired.mirrors_relocated p'.wired t).validate p.wired.wellFormed
    p'.wired.wellFormed hvalid
  refine ⟨?_, ?_, ?_⟩
  · intro freeze' g' hb'
    refine ⟨_, hashIndex_of_build hb, ?_⟩
    rw [hashIndex_of_build hb', hashIndex_of_perm (p.finished hb) (p'.finished hb') p.isContent hp]
  · intro freeze' ds hds d hd
    rw [p'.build_eq] at hds
    rw [conclude_eq_error hvalid' hds] at hd
    exact code_of_allWiringFaults hcopies p.bound.rostered p'.bound.rostered hwiring hd
  · intro ha freeze'
    have hpaths : contentPaths contents' .association =
        (contentPaths contents .association).map id := by
      rw [List.map_id]
      refine eq_of_ascending ((contentPaths_sublist _ _).nodup p'.nodup_map_fst)
        ((contentPaths_sublist _ _).nodup p.nodup_map_fst)
        ((p'.ascending (Model.ascending_sorted _)).sublist (contentPaths_sublist _ _))
        (p.ascending_associations (Preset.lawful hr) ha) ?_
      intro q
      simp only [mem_contentPaths, hp.mem_iff]
    have hhandles := p.bound.handles_counterpart p'.bound t
      ⟨Kind.noConfusion, Kind.noConfusion⟩ hpaths
    have hwiring' := hcopies.allWiringFaults_eq_nil hhandles p.bound.rostered p'.bound.rostered
      hwiring
    exact ⟨_, (p'.build_eq freeze').trans (conclude_eq_ok.mpr ⟨hwiring', hvalid', rfl⟩)⟩

def partyModel : Model :=
  [{ path := ⟨"Party"⟩
     classifier := "meta::pure::metamodel::type::Class"
     content := .obj [("_type", .str "class"),
      ("constraints", .arr [.obj [("functionDefinition", .obj [("body", .str "x")]),
        ("name", .str "c")]]),
      ("name", .str "Party"), ("package", .null),
      ("properties", .arr [.obj [("multiplicity", .obj [("lowerBound", .ofNat 0),
        ("upperBound", .null)]), ("name", .str "p"), ("type", .str "String")]]),
      ("superTypes", .arr [])] }]

theorem build_canonical_party : ∃ g g' index, build Preset.full false partyModel = .ok g ∧
    build Preset.full true partyModel.canonical = .ok g' ∧ g.hashIndex.2 = .ok index ∧
    g'.hashIndex.2 = .ok index := by
  obtain ⟨g, hb⟩ : ∃ g, build Preset.full false partyModel = .ok g := ⟨_, rfl⟩
  have htrimmable : ∀ e ∈ partyModel, e.IsTrimmable Preset.full := by
    intro e he
    obtain rfl := List.mem_singleton.mp he
    refine ⟨by decide, fun kind b hk hb => ?_⟩
    obtain rfl : EntryKind.core .class = kind := Option.some.inj hk
    obtain rfl := Except.ok.inj hb
    refine ⟨fun p hp => absurd hp List.not_mem_nil, fun c hc => ?_⟩
    obtain rfl := List.mem_singleton.mp hc
    exact ⟨rfl, rfl⟩
  obtain ⟨hhash, -, hbuilt⟩ := build_canonical Preset.registry_all hb htrimmable
  obtain ⟨g', hb'⟩ := hbuilt .nil true
  obtain ⟨index, hi, hi'⟩ := hhash true g' hb'
  exact ⟨g, g', index, hb, hb', hi, hi'⟩

theorem canonical_of_ascending (hn : (m.map Entity.path).Nodup)
    (ha : m.Pairwise fun v w => v.path.text ≤ w.path.text) :
    m.canonical = m.map Entity.canonical := by
  have hperm : (m.map Entity.canonical).Perm m.canonical := (List.mergeSort_perm _ _).symm
  have hpaths : (m.map Entity.canonical).map Entity.path = m.map Entity.path :=
    List.map_map.trans rfl
  exact (Model.eq_of_perm hperm (hpaths ▸ hn) (List.pairwise_map.mpr ha)
    (Model.ascending_sorted _)).symm

def emptyArrayModel : Model :=
  [{ path := ⟨"f"⟩
     classifier := "meta::pure::metamodel::function::ConcreteFunctionDefinition"
     content := .obj [("_type", .str "function"),
      ("body", .arr [.obj [("parameters", .arr [])]]), ("name", .str "f"),
      ("returnMultiplicity", Multiplicity.one.toJson), ("returnType", .str "String")] }]

def bodyFunction (body : List Json) : Function where
  returnType := .bound ⟨"String"⟩ ⟨0⟩
  returnMultiplicity := .one
  body := body

def bodyGraph (body : List Json) : Graph :=
  ((new Preset.full).create ⟨"f"⟩ (.function (bodyFunction body))).1

def nullModel : Model :=
  [{ path := ⟨"A"⟩
     classifier := "meta::pure::metamodel::type::Class"
     content := .obj [("_type", .str "class"), ("constraints", .arr [
        .obj [("functionDefinition", .null), ("name", .str "c")]]), ("name", .str "A")] }]

def memberModel : Model :=
  [{ path := ⟨"S"⟩
     classifier := "meta::external::store::service::metamodel::ServiceStore"
     content := .obj [("_type", .str "serviceStore"), ("elements", .arr [.obj [
        ("_type", .str "service"), ("id", .str "s"), ("method", .obj [("GET", .null)]),
        ("path", .str "/")]]), ("name", .str "S")] }]

def arrayModel : Model :=
  [{ path := ⟨"R"⟩
     classifier := "meta::pure::runtime::PackageableRuntime"
     content := .obj [("_type", .str "runtime"), ("name", .str "R"), ("runtimeValue", .arr [])] }]

def positionalModel : Model :=
  [{ path := ⟨"E"⟩
     classifier := "meta::pure::metamodel::type::Enumeration"
     content := .obj [("_type", .str "Enumeration"), ("name", .str "E")] },
   { path := ⟨"M"⟩
     classifier := "meta::pure::mapping::Mapping"
     content := .obj [("_type", .str "mapping"),
        ("enumerationMappings", .arr [.arr [.null, .str "E"]]), ("name", .str "M")] }]

def endEntity (name type : String) : Entity where
  path := ⟨name⟩
  classifier := "meta::pure::metamodel::relationship::Association"
  content := .obj [("_type", .str "association"), ("name", .str name), ("properties", .arr [
    .obj [("multiplicity", Multiplicity.one.toJson), ("name", .str "a"), ("type", .str "A")],
    .obj [("multiplicity", Multiplicity.one.toJson), ("name", .str "p"), ("type", .str type)]])]

/-- Two associations that give a class a property of one name. A mapping of the property names a
target, which is looked for where the property yields a class. -/
def associationModel (associations : List Entity) : Model :=
  [{ path := ⟨"A"⟩
     classifier := "meta::pure::metamodel::type::Class"
     content := .obj [("_type", .str "class"), ("name", .str "A")] },
   { path := ⟨"M"⟩
     classifier := "meta::pure::mapping::Mapping"
     content := .obj [("_type", .str "mapping"), ("classMappings", .arr [.obj [
        ("_type", .str "pureInstance"), ("class", .str "A"), ("propertyMappings", .arr [.obj [
          ("_type", .str "purePropertyMapping"),
          ("property", .obj [("class", .str "A"), ("property", .str "p")]),
          ("target", .str "x"), ("transform", .str "t")]]), ("root", .bool false)]]),
        ("name", .str "M")] }] ++ associations

theorem canonical_associationModel :
    Model.canonical (associationModel [endEntity "Z" "String", endEntity "Y" "A"]) =
      associationModel [endEntity "Y" "A", endEntity "Z" "String"] := by
  have hperm : (associationModel [endEntity "Y" "A", endEntity "Z" "String"]).Perm
      (associationModel [endEntity "Z" "String", endEntity "Y" "A"]) :=
    .append_left _ (.swap _ _ _)
  have hcanonical : (associationModel [endEntity "Z" "String", endEntity "Y" "A"]).map
      Entity.canonical = associationModel [endEntity "Z" "String", endEntity "Y" "A"] := rfl
  rw [Model.canonical, hcanonical]
  exact (Model.eq_of_perm (hperm.trans (List.mergeSort_perm _ _).symm) (by decide) (by decide)
    (Model.ascending_sorted _)).symm

/-- Free-form values are hashed as they are, and they must be there. Nor is a model in canonical form
built where an empty array or a null says something, or the order of the associations does. -/
theorem build_canonical_differs :
    (∃ g g', build Preset.full false emptyArrayModel = .ok g ∧
      build Preset.full false emptyArrayModel.canonical = .ok g' ∧
      Diff.ofGraphs g g' = .ok { modified := [⟨"f"⟩] }) ∧
    ∀ m ∈ [nullModel, memberModel, arrayModel, positionalModel,
        associationModel [endEntity "Z" "String", endEntity "Y" "A"]],
      (∃ g, build Preset.full false m = .ok g) ∧
        ∀ freeze g', build Preset.full freeze m.canonical ≠ .ok g' := by
  constructor
  · rw [canonical_of_ascending (m := emptyArrayModel) (by decide) (by decide)]
    have hb : build Preset.full false emptyArrayModel =
      .ok (bodyGraph [.obj [("parameters", .arr [])]]) := rfl
    have hb' : build Preset.full false (emptyArrayModel.map Entity.canonical) =
      .ok (bodyGraph [.obj []]) := rfl
    have hdigests : (bodyGraph [.obj [("parameters", .arr [])]]).digests =
      [(⟨"f"⟩, ((bodyFunction [.obj [("parameters", .arr [])]]).hashInput ⟨"f"⟩).digest)] := rfl
    have hdigests' : (bodyGraph [.obj []]).digests =
      [(⟨"f"⟩, ((bodyFunction [.obj []]).hashInput ⟨"f"⟩).digest)] := rfl
    refine ⟨_, _, hb, hb', Diff.ofGraphs_singleton (hdigests ▸ hashIndex_of_build hb)
      (hdigests' ▸ hashIndex_of_build hb') ?_⟩
    simp only [bodyFunction, Function.hashInput, Multiplicity.digest, List.map_nil,
      HashInput.digest_eq_hashNumbers]
    decide +kernel
  · intro m hm
    simp only [List.mem_cons, List.not_mem_nil, or_false] at hm
    rcases hm with rfl | rfl | rfl | rfl | rfl
    case inr.inr.inr.inr =>
      rw [canonical_associationModel]
      refine ⟨⟨_, rfl⟩, fun freeze g' hb => ?_⟩
      cases freeze <;> cases hb
    all_goals
      refine ⟨⟨_, rfl⟩, fun freeze g' hb => ?_⟩
      rw [canonical_of_ascending (by decide) (by decide)] at hb
      cases freeze <;> cases hb

end Graph
end ModelGraph
