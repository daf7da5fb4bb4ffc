import ModelGraph.Proofs.AskedIds
import ModelGraph.Proofs.CanonicalModels
import ModelGraph.Proofs.RenamedGraphs
import ModelGraph.Proofs.Writability

namespace ModelGraph.Graph

variable {g g' g₁ g₁' : Graph} {r : Registry} {m n : Model} {entries : List Entry}
  {contents contents' : List (Path × Body)} {μ ν : Path → Path} {h : Handle} {k : Kind}

theorem perm_handles_inOrder (μ : Path → Path) (g : Graph) (k : Kind) :
    ((g.inOrder μ).handles k).Perm (g.handles k) :=
  ((List.mergeSort_perm _ _).filter _).map _

theorem ascending_handles_inOrder (μ : Path → Path) (g : Graph) (k : Kind) :
    ((g.inOrder μ).handles k).Pairwise fun h h' =>
      (μ (g.pathOf h)).text ≤ (μ (g.pathOf h')).text := by
  rw [handles, List.pairwise_map]
  refine ((List.pairwise_mergeSort ?_ ?_ g.roster).imp of_decide_eq_true).sublist List.filter_sublist
  · intro a b c hab hbc
    exact decide_eq_true (String.le_trans (of_decide_eq_true hab) (of_decide_eq_true hbc))
  · intro a b
    simpa using String.le_total (μ (g.pathOf a.2)).text (μ (g.pathOf b.2)).text

theorem Mirrors.inOrder {φ : Handle → Handle} (m : Mirrors μ φ g g') : Mirrors μ φ (g.inOrder ν) g' where
  injective := m.injective
  surjective := m.surjective
  size := m.size
  element := m.element

theorem mirrors_inOrder (μ : Path → Path) (g : Graph) : Mirrors id id g (g.inOrder μ) where
  injective _ _ h := h
  surjective h := ⟨h, rfl⟩
  size := rfl
  element h := by
    have hcarry : ModelGraph.carry id id = repath Link.path := by
      funext F r
      simp [ModelGraph.carry, repath, Reference.link]
    have he : ∀ e : Element, e.carry id id = e := fun e => by
      rw [Element.carry, hcarry, Body.rebind_path]
    simp only [he]
    rfl

theorem offers_inOrder {name : String} : (g.inOrder ν).Offers μ h name ↔ g.Offers μ h name := by
  have hsources := (mirrors_inOrder ν g).sources h
  rw [List.map_id] at hsources
  rw [Offers, Offers, ← hsources]
  rfl

/-- Elements that are named by text keep their ids: where `μ` takes paths no id is had twice, each id
that is named is had if it was, and the associations keep their order. -/
structure KeepsNamedIds (μ : Path → Path) (g : Graph) : Prop where
  distinct : ∀ h e m, g.LiveAt h e → e.body = .mapping m → (m.idsAlong μ).Nodup
  named : ∀ h e m, g.LiveAt h e → e.body = .mapping m → ∀ name,
    (name ∈ m.parameterIds ∨ ∃ l ∈ m.lookups, l.target = some name) →
      g.Offers id h name → g.Offers μ h name
  order : (g.inOrder μ).handles .association = (g.inOrder id).handles .association

theorem KeepsNamedIds.idsMatch (k : g.KeepsNamedIds μ) (hm : (g.inOrder id).IdsMatch id) :
    (g.inOrder μ).IdsMatch μ := by
  intro h e m hl hb
  refine ⟨k.distinct h e m hl hb, fun name hask => offers_inOrder.mpr ?_⟩
  -- The properties that are found are those of the other order.
  have hmirror : Mirrors id id (g.inOrder id) (g.inOrder μ) := (mirrors_inOrder μ g).inOrder
  have hsame : m.outline = (m.rebind (ModelGraph.carry id id)).outline := by
    obtain ⟨e', hl', ho⟩ := hmirror.liveAt hl
    obtain rfl := hl'.unique hl
    rw [hb] at ho
    exact Body.mapping.inj ho
  have hasked := (hmirror.asks_iff (by rw [k.order, List.map_id]) hsame).mp hask
  refine k.named h e m hl hb name ?_ (offers_inOrder.mp ((hm h e m hl hb).2 name hasked))
  exact hasked.imp_right fun ⟨l, hl, htarget, _⟩ => ⟨l, hl, htarget⟩

section Finished

variable (f : Finished contents g₁ g) (f' : Finished contents' g₁' g')
  (t : Relocates μ contents contents')
include f f' t

/-- Elements of a kind that came in the order of their paths came in the order of the paths to which
these are taken. -/
theorem Finished.handles_inOrder (hk : k ≠ .package ∧ k ≠ .primitiveType)
    (hn : (contents'.map Prod.fst).Nodup)
    (ha : (contents'.map Prod.fst).Pairwise fun p q => p.text ≤ q.text) :
    g'.handles k = ((g.inOrder μ).handles k).map (g₁.counterpart μ g₁') := by
  have m := f.mirrors_relocated f' t
  have hmem : ∀ h, g₁.counterpart μ g₁' h ∈ g'.handles k ↔ h ∈ (g.inOrder μ).handles k := fun h =>
    (m.mem_handles f.rostered f'.rostered k h).trans (perm_handles_inOrder μ g k).mem_iff.symm
  have hpath : ∀ {h}, h ∈ (g.inOrder μ).handles k →
      g'.pathOf (g₁.counterpart μ g₁' h) = μ (g.pathOf h) := by
    intro h hh
    obtain ⟨e, hl, -⟩ := (mem_handles f.rostered).mp ((perm_handles_inOrder μ g k).mem_iff.mp hh)
    obtain ⟨e', hl', hp⟩ := f.liveAt_image f' t hl
    rw [hl'.pathOf, hp, hl.pathOf]
  have hpaths : (g'.handles k).map g'.pathOf = contentPaths contents' k := by
    rw [← f'.stocked.order k hk.1 hk.2, pathsOfKind, handles, handles, f'.keeps_place.roster]
    refine List.map_congr_left fun h hh => ?_
    obtain ⟨e₁, hl₁, -⟩ := (mem_handles f'.stocked.rostered).mp hh
    obtain ⟨e, hl, hp⟩ := f'.keeps_place.liveAt hl₁
    rw [hl.pathOf, hl₁.pathOf]
    exact congrArg ElementPlace.path hp
  have hlive : ∀ h ∈ g'.handles k, ∃ e, g'.LiveAt h e := fun h hh => by
    obtain ⟨e, hl, -⟩ := (mem_handles f'.rostered).mp hh
    exact ⟨e, hl⟩
  have himage : ∀ h ∈ ((g.inOrder μ).handles k).map (g₁.counterpart μ g₁'), h ∈ g'.handles k := by
    intro h hh
    obtain ⟨j, hj, rfl⟩ := List.mem_map.mp hh
    exact (hmem j).mpr hj
  refine f'.wellFormed.eq_of_pathOf hlive (fun h hh => hlive h (himage h hh)) ?_
  refine Path.Ascending.eq_of_mem_iff ?_ (Path.ascending_of_le ?_ ?_) fun p => ?_
  · rw [hpaths]
    have hs := contentPaths_sublist contents' k
    exact Path.ascending_of_le (ha.sublist hs) (hs.nodup hn)
  · rw [List.pairwise_map, List.pairwise_map]
    refine (ascending_handles_inOrder μ g k).imp_of_mem fun hh hh' hle => ?_
    rwa [hpath hh, hpath hh']
  · have hnodup : (((g.inOrder μ).handles k).map (g₁.counterpart μ g₁')).Nodup :=
      ((perm_handles_inOrder μ g k).nodup_iff.mpr (nodup_handles f.rostered k)).map_on
        fun h _ j _ heq => m.injective h j heq
    refine hnodup.map_on fun h hh j hj heq => ?_
    obtain ⟨e, hl⟩ := hlive h (himage h hh)
    obtain ⟨d, hd⟩ := hlive j (himage j hj)
    rw [hl.pathOf, hd.pathOf] at heq
    exact f'.wellFormed.handle_eq hl hd heq
  · simp only [List.mem_map]
    constructor
    · rintro ⟨h', hh', rfl⟩
      obtain ⟨h, rfl⟩ := m.surjective h'
      exact ⟨_, ⟨h, (hmem h).mp hh', rfl⟩, rfl⟩
    · rintro ⟨_, ⟨h, hh, rfl⟩, rfl⟩
      exact ⟨_, (hmem h).mpr hh, rfl⟩

theorem Finished.idsAlong_eq (hi : ∀ p b b', (p, b) ∈ contents → (μ p, b') ∈ contents' →
    b'.ids? = b.idsAlong? μ) (h : Handle) :
    (g'.mapping? (g₁.counterpart μ g₁' h)).map Mapping.ids =
      (g.mapping? h).map (·.idsAlong μ) := by
  have hmapping : ∀ {α : Type} {V : Mapping → α} {g : Graph} {h : Handle}, (g.mapping? h).map V =
      (g.element? h).bind fun e => e.body.mapping?.map V := by
    intro α V g h
    rw [mapping?_eq, body?, Option.map_bind, Option.bind_map]
    rfl
  have hpath : ∀ r, (g₁.bind .class r).path = r.path := fun r => path_onLink_bind g₁ r.link
  rw [hmapping, hmapping]
  exact f.view_relocated f' t (Body.steady_idsAlong? hpath) (Body.steady_ids? _) hi h

end Finished

/-- What contents are written as at other paths is built exactly if ids match there, in the order of
the paths. Nothing else is reported but ids of class mappings that are missing or doubled. -/
theorem Prepared.build_written {ps : List Preset} (hr : Preset.registry ps = .ok r)
    (p : Prepared r m entries contents g₁) {freeze : Bool} (hb : build r freeze m = .ok g)
    (hc : Carries μ contents) (w : Writes r (spelledAlong μ contents) n) :
    (∀ freeze', (∃ g', build r freeze' n = .ok g') ↔ (g.inOrder μ).IdsMatch μ) ∧
      ∀ freeze' ds, build r freeze' n = .error ds → ∀ d ∈ ds,
        d.code = some .classMappingNotFound ∨ d.code = some .duplicateClassMappingId := by
  have f := p.finished hb
  obtain ⟨entries', contents', g₁', p', t⟩ := p.rebuild_along hr hc w
  have t' : Relocates μ contents contents' := t.mono fun b b' hb' => hb' ▸ b.moved_reread μ
  have hi : ∀ q b b', (q, b) ∈ contents → (μ q, b') ∈ contents' → b'.ids? = b.idsAlong? μ := by
    intro q b b' hq hq'
    obtain ⟨q₀, b₀, hq₀, hpath, rfl⟩ := t.came _ _ hq'
    obtain rfl := hc.injective _ _ _ _ (.content hq₀) (.content hq) hpath
    obtain rfl := p.stocked.unique (.content hq₀) (.content hq)
    exact b₀.ids?_reread_along
  rw [p.build_eq] at hb
  obtain ⟨hwiring, hvalid, -⟩ := conclude_eq_ok.mp hb
  have hvalid' := (p.wired.mirrors_relocated p'.wired t').validate p.wired.wellFormed
    p'.wired.wellFormed hvalid
  have hm := p.bound.mirrors_relocated p'.bound t'
  have hfound : ∀ k' n', g₁'.resolveAll.1.mapping? k' = some n' →
      g₁'.resolveAll.1.LooksUpAll n' := by
    intro k' n' hn'
    obtain ⟨k, rfl⟩ := hm.surjective k'
    obtain ⟨x, hx, hout⟩ := hm.exists_mapping? hn'
    rw [mapping?_eq, Option.bind_eq_some_iff] at hx
    obtain ⟨b, hbody, hx'⟩ := hx
    obtain ⟨e, hl, rfl⟩ := p.bound.liveAt hbody
    have hb' := Body.eq_mapping hx'
    have hfaults := ((allWiringFaults_eq_nil p.bound.rostered).mp hwiring k e x hl hb').2
    exact hm.looksUpAll p.bound.rostered p'.bound.rostered hout
      ((wireFaults_eq_nil_iff (mapping?_of_live hl hb')).mp hfaults).1
  refine ⟨fun freeze' => ?_, fun freeze' ds hds d hd => ?_⟩
  · have hiff : g₁'.resolveAll.1.allWiringFaults = [] ↔ (g.inOrder μ).IdsMatch μ :=
      (f.mirrors_relocated p'.bound t').inOrder.allWiringFaults_eq_nil_iff
        (f.idsAlong_eq p'.bound t' hi)
        (f.handles_inOrder p'.bound t' ⟨Kind.noConfusion, Kind.noConfusion⟩ p'.nodup_map_fst
          (p'.ascending w.ascending)) p'.bound.rostered hfound
    rw [← hiff, p'.build_eq]
    constructor
    · rintro ⟨g', hg'⟩
      exact (conclude_eq_ok.mp hg').1
    · intro hnil
      exact ⟨_, conclude_eq_ok.mpr ⟨hnil, hvalid', rfl⟩⟩
  · rw [p'.build_eq] at hds
    rw [conclude_eq_error hvalid' hds] at hd
    exact hm.code_of_allWiringFaults p.bound.rostered p'.bound.rostered hwiring hd

/-- A renamed graph is written unless a column type can't be read, which was so before. -/
theorem Renamed.toModel_ok {ps : List Preset} (hr : Preset.registry ps = .ok r) {root : Handle}
    (rn : Renamed root g g') (p : Prepared r m entries contents g₁) (f : Finished contents g₁ g)
    (w : Writes r contents n) : ∃ n', g'.toModel = .ok n' := by
  have hg : g.registry = r := f.registry_eq.trans p.registry_eq
  have hg' : g'.registry = r := rn.registry.trans hg
  refine (rn.shows f (hg.symm ▸ hr)).toModel_ok fun q b hb => ?_
  obtain ⟨e, he, hcontent⟩ := (mem_of_mapM_ok p.contents_eq).mp hb
  obtain ⟨v, -, hwritten, -⟩ := w.written q b hb
  have hkind := (p.passes e he).kind
  have hbody := (Entry.content_eq_ok.mp hcontent).1
  rw [hg']
  rcases Entry.entity?_or hr hkind hbody (.along (g.destination g')) (g.destination g' q) with
    ⟨ho, -⟩ | ⟨type, ht, hnone, -⟩
  · exact ho
  · rcases Entry.entity?_or hr hkind hbody Link.path q with ⟨-, hread⟩ | ⟨_, -, -, herror⟩
    · exact absurd (hread type ht) (by rw [hnone]; exact Bool.false_ne_true)
    · rw [entity?_spelled_path hr, hwritten] at herror
      cases herror

/-- What a graph is written as is built exactly if ids match, before an element is renamed and
afterwards: ids formed from the path of a class are formed anew, while operations and explicit
targets name ids as text, and a property that two associations give is that of the one whose path
comes first. Nothing else is reported after the renaming, and nothing at all if the ids that are named
stay, no two become the same, and the associations keep their order. -/
theorem build_of_rename {ps : List Preset} (hr : Preset.registry ps = .ok r) {freeze : Bool}
    (hb : build r freeze m = .ok g) {e : Element} (hl : g.LiveAt h e) (hk : e.kind ≠ .primitiveType)
    {name : String} (hname : Path.IsSegment name) {g₂ : Graph} (hrename : g.rename h name = .ok g₂)
    (hn : g.toModel = .ok n) :
    ∃ n₂, g₂.toModel = .ok n₂ ∧
      (∀ freeze', (∃ g', build r freeze' n = .ok g') ↔ (g.inOrder id).IdsMatch id) ∧
      (∀ freeze', (∃ g', build r freeze' n₂ = .ok g') ↔
        (g.inOrder (g.destination g₂)).IdsMatch (g.destination g₂)) ∧
      (∀ freeze' ds, build r freeze' n₂ = .error ds → ∀ d ∈ ds,
        d.code = some .classMappingNotFound ∨ d.code = some .duplicateClassMappingId) ∧
      ((g.inOrder id).IdsMatch id → g.KeepsNamedIds (g.destination g₂) →
        (g.inOrder (g.destination g₂)).IdsMatch (g.destination g₂)) := by
  obtain ⟨entries, contents, g₁, p⟩ := prepared_of_build hb
  have f := p.finished hb
  have hg : g.registry = r := f.registry_eq.trans p.registry_eq
  have w : Writes r contents n := by
    have w := f.writes (hg.symm ▸ hr) p.isContent hn
    rwa [hg] at w
  have rn := renamed_of_rename f.wellFormed hl hname hrename
  have hcarries := rn.carries f fun x hx => hx.unique hl ▸ hk
  obtain ⟨n₂, hn₂⟩ := rn.toModel_ok hr p f w
  have w₂ : Writes r (spelledAlong (g.destination g₂) contents) n₂ := by
    have w₂ := (rn.shows f (hg.symm ▸ hr)).writes p.isContent hn₂
    rwa [rn.registry, hg] at w₂
  obtain ⟨hbefore, -⟩ := p.build_written hr hb p.stocked.carries_id
    ((writes_spelledAlong_id hr).mpr w)
  obtain ⟨hafter, hcodes⟩ := p.build_written hr hb hcarries w₂
  exact ⟨n₂, hn₂, hbefore, hafter, hcodes, fun hm hkeeps => hkeeps.idsMatch hm⟩

theorem toModel_of_entities {k : Nat}
    (h : g.live.mapM (fun l => g.entity? l.2) = .ok (List.replicate k none ++ m.map some))
    (hp : m.Perm n) (hn : (n.map Entity.path).Nodup)
    (ha : n.Pairwise fun v w => v.path.text ≤ w.path.text) : g.toModel = .ok n := by
  have hwritten : (List.replicate k none ++ m.map some).filterMap id = m := by simp
  have hsorted : Model.sorted m = n :=
    (Model.eq_of_perm (hp.symm.trans (List.mergeSort_perm _ _).symm) hn ha
      (Model.ascending_sorted _)).symm
  rw [toModel, h, ok_bind, hwritten, hsorted]
  rfl

/-- A class that is mapped under the id formed from its path, and more class mappings. -/
def mappedModel (name : String) (more : List Json) : Model :=
  [{ path := ⟨name⟩
     classifier := "meta::pure::metamodel::type::Class"
     content := .obj [("_type", .str "class"), ("name", .str name)] },
   { path := ⟨"M"⟩
     classifier := "meta::pure::mapping::Mapping"
     content := .obj [("_type", .str "mapping"), ("classMappings", .arr (
        .obj [("_type", .str "pureInstance"), ("class", .str name), ("root", .bool false)] ::
          more)), ("name", .str "M")] }]

def mappedGraph (more : List SetImplementation) : Graph :=
  (((new Preset.full).create ⟨"A"⟩ (.class {})).1.create ⟨"M"⟩ (.mapping {
    slots := { id := .inferred ⟨"A"⟩, target := .bound ⟨"A"⟩ ⟨12⟩, root := false
               kind := .pureInstance none none [] } :: more
    top := List.range (more.length + 1) })).1

/-- Where nothing names the id of a class mapping its class may have another name. -/
theorem build_of_rename_class : ∃ g₂ n₂ g₂',
    build Preset.full false (mappedModel "A" []) = .ok (mappedGraph []) ∧
    (mappedGraph []).rename ⟨12⟩ "B" = .ok g₂ ∧ g₂.toModel = .ok n₂ ∧
    build Preset.full true n₂ = .ok g₂' := by
  have hb : build Preset.full false (mappedModel "A" []) = .ok (mappedGraph []) := rfl
  have hn : (mappedGraph []).toModel = .ok (mappedModel "A" []) :=
    toModel_of_entities (k := 12) rfl (.refl _) (by decide) (by decide)
  obtain ⟨_, _, _, p⟩ := prepared_of_build hb
  have w := (p.finished hb).wellFormed
  obtain ⟨g₂, hrename⟩ : ∃ g₂, (mappedGraph []).rename ⟨12⟩ "B" = .ok g₂ := ⟨_, rfl⟩
  obtain ⟨n₂, hn₂, hbefore, hafter, -, hkeeps⟩ := build_of_rename Preset.registry_all hb
    (h := ⟨12⟩) (e := (mappedGraph []).elements[12]) ⟨rfl, rfl⟩ Kind.noConfusion
    (by decide : Path.IsSegment "B") hrename hn
  have hmapping : ∀ l ∈ (mappedGraph []).live, ∀ m ∈ l.2.body.mapping?,
      m.slots.length = 1 ∧ m.parameterIds = [] ∧ m.lookups.map PropertyLookup.target = [] := by
    decide
  have hat : ∀ h e m, (mappedGraph []).LiveAt h e → e.body = .mapping m →
      m.slots.length = 1 ∧ m.parameterIds = [] ∧ m.lookups = [] := by
    intro h e m hl hm
    obtain ⟨hslots, hparameters, hlookups⟩ :=
      hmapping (h, e) ((mem_live w).mpr hl) m (by rw [hm]; rfl)
    exact ⟨hslots, hparameters, List.map_eq_nil_iff.mp hlookups⟩
  have hhandles : (mappedGraph []).handles .association = [] := by decide
  have hk : (mappedGraph []).KeepsNamedIds ((mappedGraph []).destination g₂) := by
    refine ⟨fun h e m hl hm => ?_, fun h e m hl hm name hname => ?_, ?_⟩
    · obtain ⟨s, hs⟩ := List.length_eq_one_iff.mp (hat h e m hl hm).1
      rw [Mapping.idsAlong, hs]
      exact List.nodup_singleton _
    · obtain ⟨-, hparameters, hlookups⟩ := hat h e m hl hm
      rw [hparameters, hlookups] at hname
      simp at hname
    · have hnil := fun μ => hhandles ▸ perm_handles_inOrder μ (mappedGraph []) .association
      rw [(hnil _).eq_nil, (hnil _).eq_nil]
  obtain ⟨g₂', hg₂'⟩ := (hafter true).mpr (hkeeps ((hbefore false).mp ⟨_, hb⟩) hk)
  exact ⟨g₂, n₂, g₂', hb, hrename, hn₂, hg₂'⟩

/-- What a model is built to is written as something that is built, but no longer when an element has
another name. -/
def RenameBreaks (m : Model) (h : Handle) (name : String) : Prop :=
  ∃ g e g₂ n n₂, build Preset.full false m = .ok g ∧ g.LiveAt h e ∧ e.kind ≠ .primitiveType ∧
    Path.IsSegment name ∧ g.rename h name = .ok g₂ ∧ g.toModel = .ok n ∧
    (∃ g', build Preset.full false n = .ok g') ∧ g₂.toModel = .ok n₂ ∧
    ∀ freeze g', build Preset.full freeze n₂ ≠ .ok g'

def unionMapping (name : String) : Json :=
  .obj [("_type", .str "operation"), ("class", .str name), ("id", .str "O"),
    ("operation", .str "STORE_UNION"), ("parameters", .arr [.str "A"]), ("root", .bool false)]

def explicitMapping (name : String) : Json :=
  .obj [("_type", .str "pureInstance"), ("class", .str name), ("id", .str "B"),
    ("root", .bool false)]

/-- Where the class has another name a union names an id that no class mapping has, or the id formed
from the name is there already. Where an association has another name the property of two is that of
the other one. -/
theorem build_error_of_rename :
    RenameBreaks (mappedModel "A" [unionMapping "A"]) ⟨12⟩ "B" ∧
    RenameBreaks (mappedModel "A" [explicitMapping "A"]) ⟨12⟩ "B" ∧
    RenameBreaks (associationModel [endEntity "Y" "String", endEntity "Z" "A"]) ⟨14⟩ "ZZ" := by
  have hsegment : Path.IsSegment "B" := by decide
  refine ⟨?_, ?_, ?_⟩
  · refine ⟨mappedGraph [{ id := .explicit "O", target := .bound ⟨"A"⟩ ⟨12⟩, root := false
                           kind := .operation .storeUnion [{ id := "A", producer := some ⟨⟨13⟩, 0⟩ }] }],
      _, _, mappedModel "A" [unionMapping "A"], mappedModel "B" [unionMapping "B"], rfl, ⟨rfl, rfl⟩,
      Kind.noConfusion, hsegment, rfl, ?_, ⟨_, rfl⟩, ?_, ?_⟩
    · exact toModel_of_entities (k := 12) rfl (.refl _) (by decide) (by decide)
    · exact toModel_of_entities (k := 12) (m := (mappedModel "B" [unionMapping "B"]).reverse) rfl
        (List.reverse_perm _) (by decide) (by decide)
    · intro freeze g' hb
      cases freeze <;> cases hb
  · refine ⟨mappedGraph [{ id := .explicit "B", target := .bound ⟨"A"⟩ ⟨12⟩, root := false
                           kind := .pureInstance none none [] }],
      _, _, mappedModel "A" [explicitMapping "A"], mappedModel "B" [explicitMapping "B"], rfl,
      ⟨rfl, rfl⟩, Kind.noConfusion, hsegment, rfl, ?_, ⟨_, rfl⟩, ?_, ?_⟩
    · exact toModel_of_entities (k := 12) rfl (.refl _) (by decide) (by decide)
    · exact toModel_of_entities (k := 12) (m := (mappedModel "B" [explicitMapping "B"]).reverse) rfl
        (List.reverse_perm _) (by decide) (by decide)
    · intro freeze g' hb
      cases freeze <;> cases hb
  · refine ⟨_, _, _, associationModel [endEntity "Y" "String", endEntity "Z" "A"],
      associationModel [endEntity "Z" "A", endEntity "ZZ" "String"], rfl, ⟨rfl, rfl⟩,
      Kind.noConfusion, by decide, rfl, ?_, ⟨_, rfl⟩, ?_, ?_⟩
    · exact toModel_of_entities (k := 12) rfl (.refl _) (by decide) (by decide)
    · exact toModel_of_entities (k := 12)
        (m := associationModel [endEntity "Z" "A", endEntity "ZZ" "String"]) rfl
        (.refl _) (by decide) (by decide)
    · intro freeze g' hb
      cases freeze <;> cases hb

end ModelGraph.Graph
