import Mathlib.Data.List.Dedup
import ModelGraph.Proofs.FixedPoint
import ModelGraph.Proofs.HashIndexes

namespace ModelGraph

/-- The kind of the elements that a classifier path stands for. -/
def EntryKind.kind : EntryKind → Kind
  | .core c => c.kind
  | .extension k => .extension k.tag

def Entity.kind? (r : Registry) (e : Entity) : Option Kind :=
  (EntryKind.ofPath? r e.classifier).map EntryKind.kind

def Model.packages (m : Model) : List Path := (m.flatMap fun e => e.path.ancestors).dedup

namespace Registry

/-- The element kinds of a registry read bodies of their own kind, and each has a tag of its own. -/
structure Lawful (r : Registry) : Prop where
  reads : ∀ k ∈ r.kinds, ∀ j x, k.read j = some x → x.kind = k.tag
  tags : ∀ k ∈ r.kinds, r.kind? k.tag = some k

def classifier? (r : Registry) : Kind → Option String
  | .extension tag => (r.kind? tag).map ElementKind.classifier
  | k => (Classifier.ofKind? k).map Classifier.path

end Registry

theorem Preset.lawful {ps : List Preset} {r : Registry} (h : registry ps = .ok r) : r.Lawful where
  reads := fun _ hk _ _ hx => (restates_kind h hk hx).1
  tags := fun _ hk => kind?_tag h hk

namespace EntryKind

theorem kind_ne_package (k : EntryKind) : k.kind ≠ .package := by
  cases k with
  | core c => cases c <;> exact Kind.noConfusion
  | extension k => exact Kind.noConfusion

theorem kind_ne_primitiveType (k : EntryKind) : k.kind ≠ .primitiveType := by
  cases k with
  | core c => cases c <;> exact Kind.noConfusion
  | extension k => exact Kind.noConfusion

variable {r : Registry}

theorem mem_of_ofPath? {path : String} {k : ElementKind}
    (h : ofPath? r path = some (.extension k)) : k ∈ r.kinds ∧ k.classifier = path := by
  rw [ofPath?] at h
  split at h
  · cases h
  · obtain ⟨k', hk', he⟩ := Option.map_eq_some_iff.mp h
    cases he
    exact ⟨List.mem_of_find?_eq_some hk', by simpa using List.find?_some hk'⟩

theorem classifier?_kind (hr : r.Lawful) {path : String} {k : EntryKind}
    (h : ofPath? r path = some k) : r.classifier? k.kind = some path := by
  cases k with
  | core c =>
    have hc : Classifier.ofPath? path = some c := by
      rw [ofPath?] at h
      split at h
      · next hc => rw [hc, (EntryKind.core.inj (Option.some.inj h))]
      · obtain ⟨_, _, he⟩ := Option.map_eq_some_iff.mp h
        cases he
    rw [← Classifier.path_of_ofPath? hc]
    cases c <;> rfl
  | extension k =>
    obtain ⟨hk, rfl⟩ := mem_of_ofPath? h
    rw [kind, Registry.classifier?, hr.tags k hk]
    rfl

end EntryKind

theorem Entry.kind_body {r : Registry} (hr : r.Lawful) {e : Entry} {b : Body} (he : e.Passes r)
    (hb : e.body r = .ok b) : b.kind = e.kind.kind := by
  have hk := he.kind
  rw [body] at hb
  cases hkind : e.kind with
  | extension k =>
    rw [hkind] at hb hk
    obtain ⟨x, hx, rfl⟩ := Option.map_eq_some_iff.mp (require_eq_ok.mp hb)
    exact congrArg Kind.extension (hr.reads k (EntryKind.mem_of_ofPath? hk).1 _ _ hx)
  | core c =>
    rw [hkind] at hb
    cases c with
    | mapping =>
      obtain ⟨m, -, rfl⟩ := map_eq_ok.mp hb
      rfl
    | _ =>
      obtain ⟨x, -, rfl⟩ := Option.map_eq_some_iff.mp (require_eq_ok.mp hb)
      rfl

namespace Graph

variable {g g₁ : Graph} {r : Registry} {e : Element} {w : Entity}

theorem classifier?_of_entity? (h : g.entity? e = .ok (some w)) :
    g.registry.classifier? e.kind = some w.classifier := by
  have hentity : ∀ {classifier type : String} {j : Json} {w : Entity},
      entity e classifier type j = .ok w → classifier = w.classifier := by
    intro classifier type j w hw
    cases j with
    | obj members =>
      cases hw
      rfl
    | _ => cases hw
  have hcore : ∀ {c : Classifier} {j : Json}, (coreEntity e c j).map some = .ok (some w) →
      c.path = w.classifier := by
    intro c j hw
    obtain ⟨w', he, hw⟩ := some_of_map_ok hw
    cases he
    exact hentity hw
  rw [entity?] at h
  cases hb : e.body with
  | package children =>
    rw [hb] at h
    cases h
  | primitiveType =>
    rw [hb] at h
    cases h
  | database d =>
    simp only [hb] at h
    split at h
    · rw [Element.kind, hb, ← hcore h]
      rfl
    · cases h
  | mapping m =>
    simp only [hb] at h
    split at h
    · rw [Element.kind, hb, ← hcore h]
      rfl
    · cases h
  | extension x =>
    simp only [hb] at h
    obtain ⟨w', he, hw⟩ := some_of_map_ok h
    cases he
    rw [extensionEntity] at hw
    split at hw
    · cases hw
    · next k hk =>
      obtain ⟨j, -, hw⟩ := bind_eq_ok.mp hw
      rw [Element.kind, hb, ← hentity hw, Body.kind, Registry.classifier?, hk]
      rfl
  | _ =>
    simp only [hb] at h
    rw [Element.kind, hb, ← hcore h]
    rfl

section Prepared

variable {m : Model} {entries : List Entry} {contents : List (Path × Body)} (hr : r.Lawful)
  (p : Prepared r m entries contents g₁)
include hr p

theorem Prepared.content_of_entity (hw : w ∈ m) :
    ∃ b, (w.path, b) ∈ contents ∧ w.kind? r = some b.kind := by
  rw [← p.entities] at hw
  obtain ⟨e, he, rfl⟩ := List.mem_map.mp hw
  obtain ⟨⟨q, b⟩, hcontent⟩ := exists_of_mapM_ok p.contents_eq e he
  obtain ⟨hbody, hpath⟩ := Entry.content_eq_ok.mp hcontent
  have hpasses := p.passes e he
  refine ⟨b, hpath ▸ (mem_of_mapM_ok p.contents_eq).mpr ⟨e, he, hcontent⟩, ?_⟩
  rw [Entity.kind?, hpasses.kind, Option.map_some, Entry.kind_body hr hpasses hbody]

theorem Prepared.entity_of_content {q : Path} {b : Body} (hc : (q, b) ∈ contents) :
    ∃ w ∈ m, w.path = q ∧ w.kind? r = some b.kind := by
  obtain ⟨e, he, hcontent⟩ := (mem_of_mapM_ok p.contents_eq).mp hc
  obtain ⟨hbody, hpath⟩ := Entry.content_eq_ok.mp hcontent
  have hpasses := p.passes e he
  refine ⟨e.entity, p.entities ▸ List.mem_map_of_mem he, hpath, ?_⟩
  rw [Entity.kind?, hpasses.kind, Option.map_some, Entry.kind_body hr hpasses hbody]

end Prepared

namespace Finished

variable {contents : List (Path × Body)} (f : Finished contents g₁ g)
include f

theorem stock {h : Handle} (hl : g.LiveAt h e) :
    ∃ b, Stock contents e.path b ∧ b.kind = e.kind := by
  obtain ⟨e₁, hl₁, hpath, hs⟩ := f.gained hl
  exact ⟨_, hpath ▸ hs, (Body.kind_hull _).trans (f.kind_eq hl hl₁).symm⟩

theorem live_of_stock {p : Path} {b : Body} (hs : Stock contents p b) :
    ∃ h e, g.LiveAt h e ∧ e.path = p ∧ e.kind = b.kind := by
  obtain ⟨h, e, e₁, hl, hl₁, rfl, rfl⟩ := f.kept hs
  exact ⟨h, e, hl, f.path_eq hl hl₁, (f.kind_eq hl hl₁).trans (Body.kind_hull _).symm⟩

end Finished

end Graph

/-- What the graph of a model holds, by path and kind: the primitive types, an element for each
entity, and the packages around the entities. -/
def Model.inventory (r : Registry) (m : Model) : List (Path × Option Kind) :=
  Graph.primitiveNames.map (fun name => (⟨name⟩, some .primitiveType)) ++
    m.map (fun w => (w.path, w.kind? r)) ++ m.packages.map fun q => (q, some .package)

theorem Model.mem_packages {m : Model} {q : Path} :
    q ∈ m.packages ↔ ∃ w ∈ m, q ∈ w.path.ancestors := by
  rw [packages, List.mem_dedup, List.mem_flatMap]

theorem Model.nodup_inventory {r : Registry} {m : Model} (hn : (m.map Entity.path).Nodup) :
    (m.inventory r).Nodup := by
  have hprimitives : (Graph.primitiveNames.map fun name =>
      ((⟨name⟩ : Path), some Kind.primitiveType)).Nodup := by decide
  have hentities : (m.map fun w => (w.path, w.kind? r)).Nodup := by
    refine List.Nodup.of_map Prod.fst ?_
    rw [List.map_map]
    exact hn
  have hpackages : (m.packages.map fun q => (q, some Kind.package)).Nodup := by
    refine List.Nodup.of_map Prod.fst ?_
    rw [List.map_map]
    exact (List.map_id m.packages).symm ▸ List.nodup_dedup _
  have hkind : ∀ w ∈ m, w.kind? r ≠ some .package ∧ w.kind? r ≠ some .primitiveType := by
    intro w _
    rw [Entity.kind?]
    cases EntryKind.ofPath? r w.classifier with
    | none => exact ⟨nofun, nofun⟩
    | some k =>
      exact ⟨fun h => k.kind_ne_package (Option.some.inj h),
        fun h => k.kind_ne_primitiveType (Option.some.inj h)⟩
  rw [inventory, List.nodup_append, List.nodup_append]
  refine ⟨⟨hprimitives, hentities, ?_⟩, hpackages, ?_⟩
  · rintro _ ha _ hb rfl
    obtain ⟨name, -, rfl⟩ := List.mem_map.mp ha
    obtain ⟨w, hw, he⟩ := List.mem_map.mp hb
    exact (hkind w hw).2 (congrArg Prod.snd he)
  · rintro _ ha _ hb rfl
    obtain ⟨q, -, rfl⟩ := List.mem_map.mp hb
    rcases List.mem_append.mp ha with ha | ha
    · obtain ⟨name, -, he⟩ := List.mem_map.mp ha
      cases congrArg Prod.snd he
    · obtain ⟨w, hw, he⟩ := List.mem_map.mp ha
      exact (hkind w hw).1 (congrArg Prod.snd he)

namespace Graph

variable {g g₁ : Graph} {r : Registry} {m : Model} {entries : List Entry}
  {contents : List (Path × Body)}

theorem Prepared.mem_inventory (hr : r.Lawful) (p : Prepared r m entries contents g₁) {q : Path}
    {k : Option Kind} :
    (q, k) ∈ m.inventory r ↔ ∃ b, Stock contents q b ∧ k = some b.kind := by
  simp only [Model.inventory, List.mem_append, List.mem_map, Prod.mk.injEq]
  constructor
  · rintro ((⟨name, hn, rfl, rfl⟩ | ⟨w, hw, rfl, rfl⟩) | ⟨q, hq, rfl, rfl⟩)
    · exact ⟨_, .primitive hn, rfl⟩
    · obtain ⟨b, hb, hk⟩ := p.content_of_entity hr hw
      exact ⟨b, .content hb, hk⟩
    · obtain ⟨w, hw, hq⟩ := Model.mem_packages.mp hq
      obtain ⟨b, hb, -⟩ := p.content_of_entity hr hw
      exact ⟨_, .package hb hq, rfl⟩
  · rintro ⟨b, hs, rfl⟩
    cases hs with
    | primitive hn => exact .inl (.inl ⟨_, hn, rfl, rfl⟩)
    | content hb =>
      obtain ⟨w, hw, rfl, hk⟩ := p.entity_of_content hr hb
      exact .inl (.inr ⟨w, hw, rfl, hk⟩)
    | package hb hq =>
      obtain ⟨w, hw, rfl, -⟩ := p.entity_of_content hr hb
      exact .inr ⟨q, Model.mem_packages.mpr ⟨w, hw, hq⟩, rfl, rfl⟩

theorem Finished.live_perm (hr : r.Lawful) (p : Prepared r m entries contents g₁)
    (f : Finished contents g₁ g) :
    (g.live.map fun l => (l.2.path, some l.2.kind)).Perm (m.inventory r) := by
  have hlive : (g.live.map fun l => (l.2.path, some l.2.kind)).Nodup := by
    refine List.Nodup.of_map Prod.fst ?_
    rw [List.map_map, List.nodup_iff_pairwise_ne, List.pairwise_map]
    exact pairwise_live f.wellFormed
  refine (List.perm_ext_iff_of_nodup hlive (Model.nodup_inventory p.nodup)).mpr ?_
  rintro ⟨q, k⟩
  rw [p.mem_inventory hr, List.mem_map]
  constructor
  · rintro ⟨⟨h, e⟩, hl, he⟩
    cases he
    obtain ⟨b, hs, hk⟩ := f.stock ((mem_live f.wellFormed).mp hl)
    exact ⟨b, hs, congrArg some hk.symm⟩
  · rintro ⟨b, hs, rfl⟩
    obtain ⟨h, e, hl, rfl, hk⟩ := f.live_of_stock hs
    exact ⟨(h, e), (mem_live f.wellFormed).mpr hl, by rw [hk]⟩

theorem isModelled_kind {b : Body} : isModelled b.kind = true ↔ b.IsContent := by
  constructor
  · intro hm
    constructor <;> intro hk <;> rw [hk] at hm <;> cases hm
  · rintro ⟨hpackage, hprimitive⟩
    cases hk : b.kind with
    | package => exact absurd hk hpackage
    | primitiveType => exact absurd hk hprimitive
    | _ => rfl

section Entities

variable (hr : r.Lawful) (p : Prepared r m entries contents g₁) (f : Finished contents g₁ g)
include hr p f

theorem Finished.entity_of_modelled {h : Handle} {e : Element} (hl : g.LiveAt h e)
    (hm : isModelled e.kind = true) : ∃ w ∈ m, w.path = e.path ∧ w.kind? r = some e.kind := by
  obtain ⟨b, hs, hk⟩ := f.stock hl
  rw [← hk, isModelled_kind] at hm
  obtain ⟨w, hw, hp, hkind⟩ := p.entity_of_content hr (hs.mem hm)
  exact ⟨w, hw, hp, hk ▸ hkind⟩

theorem Finished.live_of_entity {w : Entity} (hw : w ∈ m) : ∃ h e, g.LiveAt h e ∧
    e.path = w.path ∧ w.kind? r = some e.kind ∧ isModelled e.kind = true := by
  obtain ⟨b, hb, hk⟩ := p.content_of_entity hr hw
  obtain ⟨h, e, hl, hp, hkind⟩ := f.live_of_stock (.content hb)
  exact ⟨h, e, hl, hp, hkind ▸ hk, hkind ▸ isModelled_kind.mpr (p.isContent _ hb)⟩

theorem Finished.digests_perm : (g.digests.map Prod.fst).Perm (m.map Entity.path) := by
  refine (List.perm_ext_iff_of_nodup (nodup_digests f.wellFormed) p.nodup).mpr ?_
  intro q
  rw [List.mem_map, List.mem_map]
  constructor
  · rintro ⟨⟨q, d⟩, hd, rfl⟩
    obtain ⟨h, e, hl, hm, rfl, -⟩ := (mem_digests f.wellFormed).mp hd
    obtain ⟨w, hw, hp, -⟩ := f.entity_of_modelled hr p hl hm
    exact ⟨w, hw, hp⟩
  · rintro ⟨w, hw, rfl⟩
    obtain ⟨h, e, hl, hp, -, hm⟩ := f.live_of_entity hr p hw
    exact ⟨(w.path, e.freshDigest), (mem_digests f.wellFormed).mpr ⟨h, e, hl, hm, hp, rfl⟩, rfl⟩

theorem Finished.toModel_perm {n : Model} (hn : g.toModel = .ok n) :
    (n.map fun w => (w.path, w.classifier)).Perm (m.map fun w => (w.path, w.classifier)) := by
  have hnodup : ∀ {m : Model}, (m.map Entity.path).Nodup →
      (m.map fun w => (w.path, w.classifier)).Nodup := by
    intro m hm
    refine List.Nodup.of_map Prod.fst ?_
    rwa [List.map_map]
  -- An entity of the model and one that is written for the same element have the same classifier.
  have hclassifier : ∀ {h : Handle} {e : Element} {v w : Entity}, g.LiveAt h e →
      g.entity? e = .ok (some v) → w.kind? r = some e.kind → w.classifier = v.classifier := by
    intro h e v w hl hv hk
    have hwritten := classifier?_of_entity? hv
    rw [f.registry_eq, p.registry_eq] at hwritten
    obtain ⟨k, hk, hkind⟩ := Option.map_eq_some_iff.mp hk
    have hnamed := EntryKind.classifier?_kind hr hk
    rw [hkind, hwritten] at hnamed
    exact (Option.some.inj hnamed).symm
  refine (List.perm_ext_iff_of_nodup (hnodup (nodup_toModel f.wellFormed hn))
    (hnodup p.nodup)).mpr ?_
  rintro ⟨q, c⟩
  rw [List.mem_map, List.mem_map]
  constructor
  · rintro ⟨v, hv, he⟩
    cases he
    obtain ⟨h, e, hl, hentity⟩ := (mem_toModel f.wellFormed hn).mp hv
    have hm : isModelled e.kind = true := by
      by_contra hm
      rw [entity?_of_not_content fun hc => hm (isModelled_kind.mpr hc)] at hentity
      cases hentity
    obtain ⟨w, hw, hp, hk⟩ := f.entity_of_modelled hr p hl hm
    exact ⟨w, hw, Prod.ext (hp.trans (path_of_entity? hentity).symm) (hclassifier hl hentity hk)⟩
  · rintro ⟨w, hw, he⟩
    cases he
    obtain ⟨h, e, hl, hp, hk, hm⟩ := f.live_of_entity hr p hw
    obtain ⟨o, ho⟩ := exists_entity?_of_toModel f.wellFormed hn hl
    obtain ⟨v, rfl, hpath⟩ := some_of_entity? (isModelled_kind.mp hm) ho
    exact ⟨v, (mem_toModel f.wellFormed hn).mpr ⟨h, e, hl, ho⟩,
      Prod.ext (hpath.trans hp) (hclassifier hl ho hk).symm⟩

end Entities

/-- A graph that a build has made holds exactly its model. Its elements are the primitive types, one
for each entity, at the path of the entity and of the kind that its classifier names, and one
package for each path around an entity. Its hash index has the paths of the entities, and where it
can be written it is written with their paths and classifiers, both by ascending path. -/
theorem live_of_build (hr : r.Lawful) {freeze : Bool} (hb : build r freeze m = .ok g) :
    (g.live.map fun l => (l.2.path, some l.2.kind)).Perm (m.inventory r) ∧
      (∃ x, g.hashIndex.2 = .ok x ∧ x.paths.Perm (m.map Entity.path) ∧
        x.paths.Pairwise fun p q => p.text ≤ q.text) ∧
      ∀ n, g.toModel = .ok n →
        (n.map fun w => (w.path, w.classifier)).Perm (m.map fun w => (w.path, w.classifier)) ∧
          n.Pairwise fun a b => a.path.text ≤ b.path.text := by
  obtain ⟨entries, contents, g₁, p⟩ := prepared_of_build hb
  have f := p.finished hb
  refine ⟨f.live_perm hr p, ⟨_, hashIndex_of_build hb, ?_, ?_⟩, ?_⟩
  · refine ((Index.perm_sorted _).map Prod.fst).trans ?_
    rw [Index.entries_ofList (nodup_digests f.wellFormed)]
    exact f.digests_perm hr p
  · exact List.pairwise_map.mpr (Index.ascending_sorted _)
  · intro n hn
    exact ⟨f.toModel_perm hr p hn, ascending_toModel hn⟩

def packagedParty : Entity :=
  { partyEntity [("package", .str "model")] with path := ⟨"model::Party"⟩ }

def packagedPartyGraph : Graph :=
  (((new Preset.full).addStep (.new "model" (.package [])) none).1.addStep
    (.new "Party" (.class {})) (some ⟨12⟩)).1

theorem create_packagedParty : (new Preset.full).create ⟨"model::Party"⟩ (.class {}) =
    (packagedPartyGraph, .ok ⟨13⟩) := by
  have hpackage : (new Preset.full).ensurePackage ⟨"model"⟩ =
      (((new Preset.full).addStep (.new "model" (.package [])) none).1, .ok ⟨12⟩) := by
    rw [ensurePackage]
    rfl
  have hpath : (⟨"model::Party"⟩ : Path).package? = some ⟨"model"⟩ := rfl
  have hfault : (⟨"model::Party"⟩ : Path).fault? = none := rfl
  simp only [create, hfault, hpath, hpackage]
  rfl

theorem build_packagedParty :
    build Preset.full false [packagedParty] = .ok packagedPartyGraph := by
  have hcheck : checkModel Preset.full [packagedParty] =
      .ok [⟨packagedParty, .core .class⟩] := rfl
  have hbody : Entry.body (new Preset.full).registry ⟨packagedParty, .core .class⟩ =
      .ok (.class {}) := rfl
  have hregister : register [⟨packagedParty, .core .class⟩] (new Preset.full) =
      (packagedPartyGraph, []) := by
    have hpath : packagedParty.path = ⟨"model::Party"⟩ := rfl
    simp only [register, registerEntry, hbody, hpath, create_packagedParty, Option.toList_none,
      List.append_nil]
  rw [build, hcheck]
  simp only [ok_bind, hregister]
  rfl

theorem live_of_build_packagedParty :
    (packagedPartyGraph.live.map fun l => (l.2.path, some l.2.kind)).Perm
        (primitiveNames.map (fun name => (⟨name⟩, some .primitiveType)) ++
          [(⟨"model::Party"⟩, some .class), (⟨"model"⟩, some .package)]) ∧
      (∃ x, packagedPartyGraph.hashIndex.2 = .ok x ∧ x.paths.Perm [⟨"model::Party"⟩] ∧
        x.paths.Pairwise fun p q => p.text ≤ q.text) ∧
      ∀ n, packagedPartyGraph.toModel = .ok n →
        (n.map fun w => (w.path, w.classifier)).Perm
            [(⟨"model::Party"⟩, packagedParty.classifier)] ∧
          n.Pairwise fun a b => a.path.text ≤ b.path.text := by
  have hancestors : (⟨"model::Party"⟩ : Path).ancestors = [⟨"model"⟩] := by
    have hpath : (⟨"model::Party"⟩ : Path).package? = some ⟨"model"⟩ := rfl
    have htop : (⟨"model"⟩ : Path).ancestors = [] := by
      rw [Path.ancestors]
      rfl
    rw [Path.ancestors_eq hpath, htop]
  have hpackages : Model.packages [packagedParty] = [⟨"model"⟩] := by
    have hpath : packagedParty.path = ⟨"model::Party"⟩ := rfl
    rw [Model.packages, List.flatMap_singleton, hpath, hancestors]
    rfl
  have hinventory : Model.inventory Preset.full [packagedParty] =
      primitiveNames.map (fun name => (⟨name⟩, some .primitiveType)) ++
        [(⟨"model::Party"⟩, some .class), (⟨"model"⟩, some .package)] := by
    rw [Model.inventory, hpackages]
    rfl
  exact hinventory ▸ live_of_build (Preset.lawful Preset.registry_all) build_packagedParty

end Graph
end ModelGraph
