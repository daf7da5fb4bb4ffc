import Mathlib.Data.List.Nodup
import ModelGraph.Proofs.Wiring
import ModelGraph.Proofs.WrittenEntities

namespace ModelGraph

def Naming.along (μ : Path → Path) : Naming := fun l => μ l.path

theorem Naming.along_id : along id = Link.path := rfl

namespace Graph

variable {g g' g₁ : Graph} {e e' : Element} {w : Entity} {o : Option Entity}

theorem path_of_entity {classifier type : String} {j : Json}
    (h : entity e classifier type j = .ok w) : w.path = e.path := by
  cases j with
  | obj members =>
    cases h
    rfl
  | _ => cases h

theorem some_of_map_ok {ε α : Type} {x : Except ε α} {o : Option α} (h : x.map some = .ok o) :
    ∃ a, o = some a ∧ x = .ok a := by
  cases x with
  | error fault => cases h
  | ok a =>
    cases h
    exact ⟨a, rfl, rfl⟩

theorem some_of_entity? (hb : e.body.IsContent) (h : g.entity? e = .ok o) :
    ∃ w, o = some w ∧ w.path = e.path := by
  have hcore : ∀ {c : Classifier} {j : Json}, (coreEntity e c j).map some = .ok o →
      ∃ w, o = some w ∧ w.path = e.path := by
    intro c j he
    obtain ⟨w, rfl, hw⟩ := some_of_map_ok he
    exact ⟨w, rfl, path_of_entity hw⟩
  rw [entity?] at h
  cases hbody : e.body with
  | package children => exact absurd (congrArg Body.kind hbody) hb.not_package
  | primitiveType => exact absurd (congrArg Body.kind hbody) hb.not_primitive
  | database d =>
    simp only [hbody] at h
    split at h
    · exact hcore h
    · cases h
  | mapping m =>
    simp only [hbody] at h
    split at h
    · exact hcore h
    · cases h
  | extension x =>
    simp only [hbody] at h
    obtain ⟨w, rfl, hw⟩ := some_of_map_ok h
    rw [extensionEntity] at hw
    split at hw
    · cases hw
    · obtain ⟨j, -, hw⟩ := bind_eq_ok.mp hw
      exact ⟨w, rfl, path_of_entity hw⟩
  | _ =>
    simp only [hbody] at h
    exact hcore h

theorem entity?_congr (hn : e'.name = e.name) (hp : e'.path = e.path) (hb : e'.body = e.body) :
    g.entity? e' = g.entity? e := by
  simp only [entity?, coreEntity, entity, extensionEntity, hn, hp, hb]

theorem entity?_hull (g : Graph) (p : Path) (b : Body) :
    g.entity? (.placed p b.hull) = g.entity? (.placed p b) := by
  cases b <;> rfl

theorem entity?_of_not_content (hb : ¬e.body.IsContent) : g.entity? e = .ok none := by
  rw [entity?]
  cases hbody : e.body with
  | package children => rfl
  | primitiveType => rfl
  | _ =>
    rw [hbody] at hb
    exact absurd ⟨Kind.noConfusion, Kind.noConfusion⟩ hb

theorem path_of_entity? (h : g.entity? e = .ok (some w)) : w.path = e.path := by
  by_cases hb : e.body.IsContent
  · obtain ⟨w', hw, hp⟩ := some_of_entity? hb h
    cases hw
    exact hp
  · rw [entity?_of_not_content hb] at h
    cases h

theorem referencePath_of_live {h : Handle} (hl : g.LiveAt h e) {l : Link}
    (ht : l.target = some h) : g.referencePath l = e.path := by
  simp only [referencePath, ht, Option.bind_some, hl.1]

theorem spelled_hull (names : Naming) (b : Body) :
    b.hull.spelled names = (b.spelled names).hull := by
  cases b <;> rfl

theorem entity?_of_spelled {ps : List Preset} (hr : Preset.registry ps = .ok g.registry)
    (w : g.WellFormed) {h : Handle} (hl : g.LiveAt h e) {b : Body} {names : Naming}
    (hs : e.body.spelled g.referencePath = b.spelled names) :
    g.entity? e = (bare g.registry).entity? (.placed e.path (b.spelled names)) := by
  rw [← entity?_spelled (Preset.writesByName hr) e, hs]
  exact entity?_congr (w.name_path hl).symm rfl rfl

variable {contents : List (Path × Body)}

theorem element?_resolveAll (w : g.WellFormed) (ha : g.AllAlive) (h : Handle) :
    g.resolveAll.1.element? h =
      (g.element? h).map fun e => { e with body := e.body.rebind g.bind } := by
  rw [resolveAll, w.element?_updateLive]
  cases he : g.element? h with
  | none => rfl
  | some e => simp [ha h e he]

/-- A graph that a build has made of contents: they are in a graph in which all references can be
resolved, and after that nothing has happened but binding, wiring and freezing. -/
structure Finished (contents : List (Path × Body)) (g₁ g : Graph) : Prop where
  stocked : Stocked contents g₁
  resolved : g₁.resolutionFaults = []
  keeps : Keeps Element.unwired g₁.resolveAll.1 g

theorem Prepared.finished {r : Registry} {m : Model} {entries : List Entry} {freeze : Bool}
    (p : Prepared r m entries contents g₁) (h : build r freeze m = .ok g) :
    Finished contents g₁ g := by
  rw [p.build_eq] at h
  exact ⟨p.stocked, p.resolved, keeps_of_conclude h⟩

namespace Finished

variable (f : Finished contents g₁ g)
include f

theorem keeps_post : Keeps Element.post g₁ g := (keeps_resolveAll g₁).trans f.keeps.post

theorem keeps_place : Keeps Element.place g₁ g := f.keeps_post.place

theorem wellFormed : g.WellFormed := f.keeps_place.wellFormed f.stocked.wellFormed

theorem registry_eq : g.registry = g₁.registry := f.keeps_place.registry

theorem resolves {h : Handle} {e : Element} (hl : g₁.LiveAt h e) :
    ∀ l ∈ e.body.links, ∃ t, g₁.resolve l = .ok t :=
  (resolutionFaults_eq_nil f.stocked.wellFormed).mp f.resolved h e hl

section Live

variable {h : Handle} {e e₁ : Element} (hl : g.LiveAt h e) (hl₁ : g₁.LiveAt h e₁)
include hl hl₁

theorem post_eq : e.post = e₁.post := by
  obtain ⟨e', he', hpost⟩ := f.keeps_post.element? hl₁.1
  rwa [Option.some.inj (he'.symm.trans hl.1)] at hpost

theorem path_eq : e.path = e₁.path := congrArg (fun x => x.1.path) (f.post_eq hl hl₁)

theorem kind_eq : e.kind = e₁.kind := congrArg Prod.snd (f.post_eq hl hl₁)

theorem unwire_body_eq : e.body.unwire = (e₁.body.rebind g₁.bind).unwire := by
  obtain ⟨e₂, he₂, hunwired⟩ := f.keeps.symm.element? hl.1
  rw [element?_resolveAll f.stocked.wellFormed f.stocked.allAlive, hl₁.1] at he₂
  cases he₂
  exact (congrArg Prod.snd hunwired).symm

/-- The references of an element are spelled where a naming takes the elements that they are bound
to. -/
theorem spelled_eq {names : Naming} {μ : Path → Path}
    (hn : ∀ t x, g.LiveAt t x → ∀ F q, names ⟨F, q, some t⟩ = μ x.path) :
    e.body.spelled names = e₁.body.spelled (.along μ) := by
  rw [Body.spelled_of_unwire (f.unwire_body_eq hl hl₁), Body.spelled, Body.spelled,
    Body.rebind_rebind]
  refine congrArg Body.unwire (Body.rebind_eq_iff.mpr ?_)
  intro l hm
  obtain ⟨t, ht⟩ := f.resolves hl₁ l hm
  obtain ⟨x, hx, hp, -⟩ := (resolve_eq_ok f.stocked.wellFormed).mp ht
  obtain ⟨x', hx', hplace⟩ := f.keeps_place.liveAt hx
  have hpath : x'.path = l.path := (congrArg ElementPlace.path hplace).trans hp
  have hbind : g₁.bind l.family ⟨l.path, l.target⟩ = .bound l.path t := bind_link ht
  have hname : names ⟨l.family, l.path, some t⟩ = μ l.path := hpath ▸ hn t x' hx' l.family l.path
  simp only [Rebinding.onLink, Rebinding.after, hbind, spell]
  rw [show (Reference.bound l.path t : Reference l.family).link = ⟨l.family, l.path, some t⟩ from rfl,
    hname]
  rfl

theorem entity?_eq {ps : List Preset} (hr : Preset.registry ps = .ok g.registry) :
    g.entity? e = (bare g.registry).entity? (.placed e₁.path e₁.body.hull) := by
  have hs : e.body.spelled g.referencePath = e₁.body.spelled (.along id) :=
    f.spelled_eq hl hl₁ fun t x hx F q => referencePath_of_live hx rfl
  rw [entity?_of_spelled hr f.wellFormed hl hs, Naming.along_id, entity?_spelled_path hr,
    f.path_eq hl hl₁, entity?_hull]

end Live

theorem kept {p : Path} {b : Body} (hs : Stock contents p b) :
    ∃ h e e₁, g.LiveAt h e ∧ g₁.LiveAt h e₁ ∧ e₁.path = p ∧ e₁.body.hull = b := by
  obtain ⟨h, e₁, hl₁, hp, hb⟩ := f.stocked.kept p b hs
  obtain ⟨e, hl, -⟩ := f.keeps_place.liveAt hl₁
  exact ⟨h, e, e₁, hl, hl₁, hp, hb⟩

theorem gained {h : Handle} {e : Element} (hl : g.LiveAt h e) :
    ∃ e₁, g₁.LiveAt h e₁ ∧ e₁.path = e.path ∧ Stock contents e₁.path e₁.body.hull := by
  obtain ⟨e₁, hl₁, hplace⟩ := f.keeps_place.symm.liveAt hl
  exact ⟨e₁, hl₁, congrArg ElementPlace.path hplace, f.stocked.gained h e₁ hl₁⟩

end Finished

theorem mem_live (w : g.WellFormed) {h : Handle} : (h, e) ∈ g.live ↔ g.LiveAt h e :=
  mem_live_of_values fun _ => w.mem_values_iff

theorem pairwise_live (w : g.WellFormed) :
    g.live.Pairwise fun l l' => l.2.path ≠ l'.2.path := by
  rw [live, List.pairwise_filterMap]
  refine w.values_nodup.imp_of_mem ?_
  intro h h' hv hv' hne l hl l' hl' hp
  obtain ⟨e, he⟩ := w.mem_values_iff.mp hv
  obtain ⟨e', he'⟩ := w.mem_values_iff.mp hv'
  rw [he.1] at hl
  rw [he'.1] at hl'
  cases hl
  cases hl'
  exact hne (w.handle_eq he he' hp)

end Graph

namespace Model

theorem mem_sorted {m : Model} {w : Entity} : w ∈ sorted m ↔ w ∈ m := List.mem_mergeSort

theorem nodup_sorted {m : Model} (hn : (m.map Entity.path).Nodup) :
    ((sorted m).map Entity.path).Nodup :=
  ((List.mergeSort_perm _ _).map _).nodup_iff.mpr hn

theorem ascending_sorted (m : Model) :
    (sorted m).Pairwise fun a b => a.path.text ≤ b.path.text := by
  refine (List.pairwise_mergeSort ?_ ?_ m).imp of_decide_eq_true
  · intro a b c hab hbc
    exact decide_eq_true (String.le_trans (of_decide_eq_true hab) (of_decide_eq_true hbc))
  · intro a b
    simpa using String.le_total a.path.text b.path.text

theorem eq_of_perm {m m' : Model} (hp : m.Perm m') (hn : (m.map Entity.path).Nodup)
    (ha : m.Pairwise fun a b => a.path.text ≤ b.path.text)
    (ha' : m'.Pairwise fun a b => a.path.text ≤ b.path.text) : m = m' := by
  refine hp.eq_of_pairwise ?_ ha ha'
  intro a b ha hb hab hba
  have hpath : a.path = b.path := congrArg Path.mk (String.le_antisymm hab hba)
  exact List.inj_on_of_nodup_map hn ha (hp.mem_iff.mpr hb) hpath

end Model

namespace Graph

variable {g : Graph} {e : Element} {m : Model}

theorem mem_toModel (wf : g.WellFormed) (h : g.toModel = .ok m) {w : Entity} :
    w ∈ m ↔ ∃ h e, g.LiveAt h e ∧ g.entity? e = .ok (some w) := by
  obtain ⟨os, hos, h⟩ := bind_eq_ok.mp h
  cases h
  rw [Model.mem_sorted, List.mem_filterMap]
  simp only [id, exists_eq_right]
  rw [mem_of_mapM_ok hos]
  constructor
  · rintro ⟨⟨h, e⟩, hl, he⟩
    exact ⟨h, e, (mem_live wf).mp hl, he⟩
  · rintro ⟨h, e, hl, he⟩
    exact ⟨(h, e), (mem_live wf).mpr hl, he⟩

theorem nodup_toModel (wf : g.WellFormed) (h : g.toModel = .ok m) :
    (m.map Entity.path).Nodup := by
  obtain ⟨os, hos, h⟩ := bind_eq_ok.mp h
  cases h
  have hpairwise := pairwise_of_mapM_ok
    (S := fun o o' => ∀ w, o = some w → ∀ w', o' = some w' → w.path ≠ w'.path)
    hos (pairwise_live wf) fun l l' o o' hne ho ho' w hw w' hw' he => by
      rw [hw] at ho
      rw [hw'] at ho'
      exact hne ((path_of_entity? ho).symm.trans (he.trans (path_of_entity? ho')))
  have hnodup : ((os.filterMap id).map Entity.path).Nodup := by
    rw [List.nodup_iff_pairwise_ne, List.pairwise_map, List.pairwise_filterMap]
    exact hpairwise
  exact Model.nodup_sorted hnodup

theorem ascending_toModel (h : g.toModel = .ok m) :
    m.Pairwise fun a b => a.path.text ≤ b.path.text := by
  obtain ⟨os, hos, h⟩ := bind_eq_ok.mp h
  cases h
  exact Model.ascending_sorted _

theorem exists_entity?_of_toModel (wf : g.WellFormed) (h : g.toModel = .ok m) {t : Handle}
    (hl : g.LiveAt t e) : ∃ o, g.entity? e = .ok o := by
  obtain ⟨os, hos, -⟩ := bind_eq_ok.mp h
  exact exists_of_mapM_ok hos (t, e) ((mem_live wf).mpr hl)

end Graph

/-- The entities of contents: one for each of them, by ascending path. -/
structure Writes (r : Registry) (contents : List (Path × Body)) (m : Model) : Prop where
  written : ∀ p b, (p, b) ∈ contents →
    ∃ w ∈ m, (Graph.bare r).entity? (.placed p b) = .ok (some w) ∧ w.path = p
  content : ∀ w ∈ m, ∃ b, (w.path, b) ∈ contents ∧
    (Graph.bare r).entity? (.placed w.path b) = .ok (some w)
  nodup : (m.map Entity.path).Nodup
  ascending : m.Pairwise fun a b => a.path.text ≤ b.path.text

namespace Writes

variable {r : Registry} {contents : List (Path × Body)} {m m' : Model}

theorem subset (w : Writes r contents m) (w' : Writes r contents m') : m ⊆ m' := by
  intro a ha
  obtain ⟨b, hb, he⟩ := w.content a ha
  obtain ⟨a', ha', he', -⟩ := w'.written _ _ hb
  rw [he] at he'
  cases he'
  exact ha'

theorem unique (w : Writes r contents m) (w' : Writes r contents m') : m = m' := by
  have hperm : m.Perm m' := by
    refine (List.perm_ext_iff_of_nodup (w.nodup.of_map _) (w'.nodup.of_map _)).mpr
      fun a => ?_
    exact ⟨fun h => w.subset w' h, fun h => w'.subset w h⟩
  exact Model.eq_of_perm hperm w.nodup w.ascending w'.ascending

end Writes

def spelledAlong (μ : Path → Path) (contents : List (Path × Body)) : List (Path × Body) :=
  contents.map fun c => (μ c.1, c.2.spelled (.along μ))

theorem mem_spelledAlong {μ : Path → Path} {contents : List (Path × Body)} {q : Path} {b' : Body} :
    (q, b') ∈ spelledAlong μ contents ↔
      ∃ p b, (p, b) ∈ contents ∧ μ p = q ∧ b.spelled (.along μ) = b' := by
  simp [spelledAlong]

theorem writes_spelledAlong_id {ps : List Preset} {r : Registry} {contents : List (Path × Body)}
    {m : Model} (hr : Preset.registry ps = .ok r) :
    Writes r (spelledAlong id contents) m ↔ Writes r contents m := by
  constructor
  · intro w
    refine ⟨?_, ?_, w.nodup, w.ascending⟩
    · intro q b hb
      obtain ⟨v, hv, hwritten, hp⟩ := w.written _ _ (mem_spelledAlong.mpr ⟨q, b, hb, rfl, rfl⟩)
      exact ⟨v, hv, (entity?_spelled_path hr _ b).symm.trans hwritten, hp⟩
    · intro v hv
      obtain ⟨_, hspelled, hwritten⟩ := w.content v hv
      obtain ⟨q, b, hb, hq, rfl⟩ := mem_spelledAlong.mp hspelled
      exact ⟨b, hq ▸ hb, (entity?_spelled_path hr _ b).symm.trans hwritten⟩
  · intro w
    refine ⟨?_, ?_, w.nodup, w.ascending⟩
    · intro q b' hb'
      obtain ⟨p, b, hb, rfl, rfl⟩ := mem_spelledAlong.mp hb'
      obtain ⟨v, hv, hwritten, hp⟩ := w.written _ _ hb
      exact ⟨v, hv, (entity?_spelled_path hr _ b).trans hwritten, hp⟩
    · intro v hv
      obtain ⟨b, hb, hwritten⟩ := w.content v hv
      exact ⟨_, mem_spelledAlong.mpr ⟨_, b, hb, rfl, rfl⟩,
        (entity?_spelled_path hr _ b).trans hwritten⟩

theorem Body.isContent_spelled {names : Naming} {b : Body} :
    (b.spelled names).IsContent ↔ b.IsContent := by
  have hk : (b.spelled names).kind = b.kind := by rw [spelled, kind_unwire, kind_rebind]
  constructor
  · rintro ⟨hpackage, hprimitive⟩
    exact ⟨hk ▸ hpackage, hk ▸ hprimitive⟩
  · rintro ⟨hpackage, hprimitive⟩
    exact ⟨hk.symm ▸ hpackage, hk.symm ▸ hprimitive⟩

namespace Graph

variable {g g₁ : Graph} {ps : List Preset} {contents : List (Path × Body)} {m : Model}

/-- A graph that shows contents along a map of paths: each is at the path to which it is taken, and is
written as it would be by itself with its references taken along, and there is nothing else. -/
structure Shows (μ : Path → Path) (contents : List (Path × Body)) (g : Graph) : Prop where
  wellFormed : g.WellFormed
  kept : ∀ p b, Stock contents p b → ∃ h e, g.LiveAt h e ∧ e.path = μ p ∧
    g.entity? e = (bare g.registry).entity? (.placed (μ p) (b.spelled (.along μ)))
  gained : ∀ h e, g.LiveAt h e → ∃ p b, Stock contents p b ∧ e.path = μ p ∧
    g.entity? e = (bare g.registry).entity? (.placed (μ p) (b.spelled (.along μ)))

namespace Shows

variable {μ : Path → Path} (s : Shows μ contents g)
include s

theorem toModel_ok (hw : ∀ p b, (p, b) ∈ contents →
    ∃ o, (bare g.registry).entity? (.placed (μ p) (b.spelled (.along μ))) = .ok o) :
    ∃ m, g.toModel = .ok m := by
  have hlive : ∀ l ∈ g.live, ∃ o, g.entity? l.2 = .ok o := by
    rintro ⟨h, e⟩ hl
    obtain ⟨p, b, hb, -, he⟩ := s.gained h e ((mem_live s.wellFormed).mp hl)
    rw [he]
    by_cases hc : b.IsContent
    · exact hw _ _ (hb.mem hc)
    · exact ⟨none, entity?_of_not_content fun hs => hc (Body.isContent_spelled.mp hs)⟩
  obtain ⟨os, hos⟩ := mapM_ok hlive
  exact ⟨_, by rw [toModel, hos]; rfl⟩

theorem writes (hc : ∀ c ∈ contents, c.2.IsContent) (h : g.toModel = .ok m) :
    Writes g.registry (spelledAlong μ contents) m := by
  have hwf := s.wellFormed
  constructor
  case written =>
    intro q b' hb'
    obtain ⟨p, b, hb, rfl, rfl⟩ := mem_spelledAlong.mp hb'
    obtain ⟨t, e, hl, hp, he⟩ := s.kept p b (.content hb)
    obtain ⟨o, ho⟩ := exists_entity?_of_toModel hwf h hl
    obtain ⟨w, rfl, hw⟩ := some_of_entity? (Body.isContent_spelled.mpr (hc _ hb))
      (he.symm.trans ho)
    exact ⟨w, (mem_toModel hwf h).mpr ⟨t, e, hl, ho⟩, he.symm.trans ho, hw⟩
  case content =>
    intro w hw
    obtain ⟨t, e, hl, ho⟩ := (mem_toModel hwf h).mp hw
    obtain ⟨p, b, hb, hp, he⟩ := s.gained t e hl
    have heq := he.symm.trans ho
    have hpath : w.path = μ p := path_of_entity? heq
    by_cases hk : b.IsContent
    · exact ⟨_, mem_spelledAlong.mpr ⟨p, b, hb.mem hk, hpath.symm, rfl⟩, hpath ▸ heq⟩
    · rw [entity?_of_not_content fun hs => hk (Body.isContent_spelled.mp hs)] at heq
      cases heq
  case nodup => exact nodup_toModel hwf h
  case ascending => exact ascending_toModel h

end Shows

namespace Finished

theorem shows (f : Finished contents g₁ g) (hr : Preset.registry ps = .ok g.registry) :
    Shows id contents g := by
  have hentity : ∀ {h e e₁}, g.LiveAt h e → g₁.LiveAt h e₁ → g.entity? e =
      (bare g.registry).entity? (.placed e₁.path (e₁.body.hull.spelled (.along id))) := by
    intro h e e₁ hl hl₁
    rw [f.entity?_eq hl hl₁ hr, Naming.along_id, entity?_spelled_path hr]
  constructor
  case wellFormed => exact f.wellFormed
  case kept =>
    intro p b hs
    obtain ⟨h, e, e₁, hl, hl₁, rfl, rfl⟩ := f.kept hs
    exact ⟨h, e, hl, f.path_eq hl hl₁, hentity hl hl₁⟩
  case gained =>
    intro h e hl
    obtain ⟨e₁, hl₁, hpath, hs⟩ := f.gained hl
    exact ⟨_, _, hs, hpath.symm, hentity hl hl₁⟩

theorem toModel_ok (f : Finished contents g₁ g) (hr : Preset.registry ps = .ok g.registry)
    (hw : ∀ p b, (p, b) ∈ contents → ∃ o, (bare g.registry).entity? (.placed p b) = .ok o) :
    ∃ m, g.toModel = .ok m := by
  refine (f.shows hr).toModel_ok fun p b hb => ?_
  rw [Naming.along_id, entity?_spelled_path hr]
  exact hw p b hb

theorem writes (f : Finished contents g₁ g) (hr : Preset.registry ps = .ok g.registry)
    (hc : ∀ c ∈ contents, c.2.IsContent) (h : g.toModel = .ok m) :
    Writes g.registry contents m :=
  (writes_spelledAlong_id hr).mp ((f.shows hr).writes hc h)

end Finished
end Graph
end ModelGraph
