import ModelGraph.Build.Basic
import ModelGraph.Proofs.Additions

namespace ModelGraph

namespace Body

/-- The body with no children listed; only packages list some. -/
def hull (b : Body) : Body := b.mapChildren fun _ => []

@[simp]
theorem hull_mapChildren (f : List Handle → List Handle) (b : Body) :
    (b.mapChildren f).hull = b.hull := by
  cases b <;> rfl

@[simp]
theorem kind_hull (b : Body) : b.hull.kind = b.kind := kind_mapChildren _ b

theorem hull_of_childless {b : Body} (h : b.children = []) : b.hull = b := by
  cases b with
  | package children => exact congrArg package h.symm
  | _ => rfl

theorem hull_of_package {b : Body} (h : b.kind = .package) : b.hull = .package [] := by
  cases b with
  | package children => rfl
  | _ => cases h

/-- The body of an entity: neither a package nor a primitive type. -/
structure IsContent (b : Body) : Prop where
  not_package : b.kind ≠ .package
  not_primitive : b.kind ≠ .primitiveType

end Body

namespace Graph

variable {g g' : Graph}

theorem hull_grown (owner : Option Handle) (child h : Handle) (e : Element) :
    (grown owner child h e).body.hull = e.body.hull := by
  rw [grown]
  split
  · exact Body.hull_mapChildren _ _
  · rfl

def AllAlive (g : Graph) : Prop := ∀ h e, g.element? h = some e → e.deleted = false

namespace Grows

variable {P : Path → Body → Prop} {h : Handle} {e : Element}

theorem kept (a : Grows P g g') (hl : g.LiveAt h e) :
    ∃ e', g'.LiveAt h e' ∧ e'.path = e.path ∧ e'.body.hull = e.body.hull := by
  induction a with
  | refl => exact ⟨e, hl, rfl, rfl⟩
  | push _ f _ ih =>
    obtain ⟨e', hl', hp, hb⟩ := ih
    exact ⟨_, f.liveAt_old hl', (path_grown _ _ _ _).trans hp, (hull_grown _ _ _ _).trans hb⟩

theorem gained (a : Grows P g g') (hl : g'.LiveAt h e) :
    (∃ e', g.LiveAt h e' ∧ e'.path = e.path ∧ e'.body.hull = e.body.hull) ∨
      P e.path e.body.hull := by
  induction a generalizing e with
  | refl => exact .inl ⟨e, hl, rfl, rfl⟩
  | push _ f hP ih =>
    cases f.liveAt_push hl with
    | inl hn =>
      obtain ⟨-, rfl⟩ := hn
      exact .inr ((Body.hull_of_childless f.childless).symm ▸ hP)
    | inr ho =>
      obtain ⟨y, hy, rfl⟩ := ho
      rw [path_grown, hull_grown]
      exact ih hy

theorem allAlive (a : Grows P g g') (hg : g.AllAlive) : g'.AllAlive := by
  induction a with
  | refl => exact hg
  | push _ f _ ih =>
    intro h e he
    rw [f.element?_push] at he
    split at he
    · cases he
      exact f.alive
    · obtain ⟨y, hy, rfl⟩ := Option.map_eq_some_iff.mp he
      exact (deleted_grown _ _ _ _).trans (ih h y hy)

theorem frozen_eq (a : Grows P g g') : g'.frozen = g.frozen := by
  induction a with
  | refl => rfl
  | @push g' e owner path _ _ _ ih =>
    rw [← ih]
    cases owner <;> rfl

theorem lookup_eq_none_of (a : Grows P g g') (w : g.WellFormed) {p : Path}
    (hp : g'.lookup p = none) : g.lookup p = none := by
  cases hl : g.lookup p with
  | none => rfl
  | some h =>
    obtain ⟨e, he, rfl⟩ := (w.lookup_iff p h).mp hl
    obtain ⟨e', he', hpath, -⟩ := a.kept he
    rw [← hpath, (a.wellFormed w).lookup_path he'] at hp
    cases hp

theorem lookup_eq_none {Q : Path → Prop} (a : Grows (fun q _ => Q q) g g') (w : g.WellFormed)
    {p : Path} (hl : g.lookup p = none) (hp : ¬Q p) : g'.lookup p = none := by
  cases hl' : g'.lookup p with
  | none => rfl
  | some h =>
    obtain ⟨e, he, rfl⟩ := ((a.wellFormed w).lookup_iff p h).mp hl'
    cases a.gained he with
    | inl hold =>
      obtain ⟨e', hlive, hpath, _⟩ := hold
      rw [← hpath, w.lookup_path hlive] at hl
      cases hl
    | inr hnew => exact absurd hnew hp

end Grows

def handles (g : Graph) (k : Kind) : List Handle := (g.roster.filter (·.1 == k)).map Prod.snd

def pathsOfKind (g : Graph) (k : Kind) : List Path := (g.handles k).map g.pathOf

theorem mem_handles (ro : g.Rostered) {k : Kind} {h : Handle} :
    h ∈ g.handles k ↔ ∃ e, g.LiveAt h e ∧ e.kind = k := by
  rw [← ro.mem_iff]
  simp [handles]

theorem mem_pathsOfKind (ro : g.Rostered) {k : Kind} {p : Path} :
    p ∈ g.pathsOfKind k ↔ ∃ h e, g.LiveAt h e ∧ e.path = p ∧ e.kind = k := by
  rw [pathsOfKind, List.mem_map]
  constructor
  · rintro ⟨h, hm, rfl⟩
    obtain ⟨e, hl, hk⟩ := (mem_handles ro).mp hm
    exact ⟨h, e, hl, hl.pathOf.symm, hk⟩
  · rintro ⟨h, e, hl, rfl, hk⟩
    exact ⟨h, (mem_handles ro).mpr ⟨e, hl, hk⟩, hl.pathOf⟩

theorem nodup_handles (ro : g.Rostered) (k : Kind) : (g.handles k).Nodup :=
  ((List.filter_sublist).map Prod.snd).nodup ro.nodup

theorem nodup_pathsOfKind (w : g.WellFormed) (ro : g.Rostered) (k : Kind) :
    (g.pathsOfKind k).Nodup := by
  rw [pathsOfKind, List.nodup_iff_pairwise_ne, List.pairwise_map]
  refine (nodup_handles ro k).imp_of_mem ?_
  intro h h' hm hm' hne hp
  obtain ⟨e, hl, -⟩ := (mem_handles ro).mp hm
  obtain ⟨e', hl', -⟩ := (mem_handles ro).mp hm'
  rw [hl.pathOf, hl'.pathOf] at hp
  exact hne (w.handle_eq hl hl' hp)

theorem Grows.pathsOfKind {P : Path → Body → Prop} (a : Grows P g g') (ro : g.Rostered) (k : Kind) :
    ∃ ps, g'.pathsOfKind k = g.pathsOfKind k ++ ps ∧ ∀ p ∈ ps, ∃ b, P p b ∧ b.kind = k := by
  induction a with
  | refl => exact ⟨[], (List.append_nil _).symm, by simp⟩
  | @push g' e owner path a f hP ih =>
    obtain ⟨ps, hps, hnew⟩ := ih
    have hold : (g'.handles k).map (g'.push e owner path).1.pathOf = g'.pathsOfKind k := by
      refine List.map_congr_left fun h hm => ?_
      obtain ⟨y, hl, -⟩ := (mem_handles (a.rostered ro)).mp hm
      exact f.pathOf_push hl
    by_cases hk : e.kind = k
    · refine ⟨ps ++ [path], ?_, ?_⟩
      · have hh : (g'.push e owner path).1.handles k = g'.handles k ++ [⟨g'.elements.size⟩] := by
          simp [handles, roster_push, hk]
        rw [Graph.pathsOfKind, hh, List.map_append, hold, hps, List.append_assoc, List.map_singleton,
          f.liveAt_new.pathOf]
        rfl
      · intro p hp
        rcases List.mem_append.mp hp with hp | hp
        · exact hnew p hp
        · rw [List.mem_singleton.mp hp]
          exact ⟨e.body, hP, hk⟩
    · refine ⟨ps, ?_, hnew⟩
      have hh : (g'.push e owner path).1.handles k = g'.handles k := by
        simp [handles, roster_push, hk]
      rw [Graph.pathsOfKind, hh, hold, hps]

theorem Grows.pathsOfKind_of_forall {P : Path → Body → Prop} (a : Grows P g g') (ro : g.Rostered)
    {k : Kind} (hk : ∀ p b, P p b → b.kind ≠ k) : g'.pathsOfKind k = g.pathsOfKind k := by
  obtain ⟨ps, hps, hnew⟩ := a.pathsOfKind ro k
  have hnil : ps = [] := List.eq_nil_iff_forall_not_mem.mpr fun p hp => by
    obtain ⟨b, hb, hkind⟩ := hnew p hp
    exact hk p b hb hkind
  rw [hps, hnil, List.append_nil]

theorem WellFormed.live_ancestor (w : g.WellFormed) {h : Handle} {e : Element} (hl : g.LiveAt h e)
    {q : Path} (hq : q ∈ e.path.ancestors) :
    ∃ o p, g.LiveAt o p ∧ p.path = q ∧ p.kind = .package := by
  generalize hp : e.path = path at hq
  fun_induction Path.ancestors path generalizing h e with
  | case1 path o ho ih =>
    subst hp
    obtain ⟨owner, p, hpackage, hlive, rfl⟩ := w.owner_of_package? hl ho
    rcases List.mem_cons.mp hq with rfl | hq
    · obtain ⟨p', hp', hk, _⟩ := w.owner h e owner hl hpackage
      rw [hlive.unique hp']
      exact ⟨owner, p', hp', rfl, hk⟩
    · exact ih hlive rfl hq
  | case2 => cases hq

theorem liveAt_create (w : g.WellFormed) {p : Path} {b : Body} (hb : b.children = []) {h : Handle}
    (hc : (g.create p b).2 = .ok h) :
    ∃ e, (g.create p b).1.LiveAt h e ∧ e.path = p ∧ e.body = b := by
  unfold create at hc ⊢
  cases hf : p.fault? with
  | some fault =>
    rw [hf] at hc
    cases hc
  | none =>
    rw [hf] at hc
    have hj := Path.fault?_eq_none_iff_join.mp hf
    cases hq : p.package? with
    | none =>
      rw [hq] at hc
      exact ⟨_, liveAt_addStep hc hb rfl hj.1, Path.join_name_of_package? hq, rfl⟩
    | some q =>
      rw [hq] at hc
      obtain ⟨-, howner⟩ := ensurePackage_grows (P := fun _ _ => True) w q (hj.2 q hq)
        fun _ _ => trivial
      simp only at hc ⊢
      split at hc
      · next g' owner he =>
        rw [he] at howner
        obtain ⟨o, ho, hpath, _⟩ := howner owner rfl
        have hjoin : Path.join (some (g'.pathOf owner)) p.name = p :=
          Path.join_name_of_package? (by rw [ho.pathOf, hpath, hq])
        exact ⟨_, liveAt_addStep hc hb rfl hj.1, hjoin, rfl⟩
      · cases hc

theorem lookup_of_addStep {e : Element} {owner : Option Handle} {h : Handle}
    (ha : (g.addStep e owner).2 = .ok h) :
    g.lookup (Path.join (owner.map g.pathOf) e.name) = none := by
  obtain ⟨-, -, -, hfree⟩ := addStep_eq_ok ha
  exact hfree

theorem lookup_of_create (w : g.WellFormed) {p : Path} {b : Body} {h : Handle}
    (hc : (g.create p b).2 = .ok h) : g.lookup p = none := by
  unfold create at hc
  cases hf : p.fault? with
  | some fault =>
    rw [hf] at hc
    cases hc
  | none =>
    rw [hf] at hc
    have hj := Path.fault?_eq_none_iff_join.mp hf
    cases hq : p.package? with
    | none =>
      rw [hq] at hc
      have hfree := lookup_of_addStep hc
      rwa [Option.map_none, Element.new, Path.join_name_of_package? hq] at hfree
    | some q =>
      rw [hq] at hc
      obtain ⟨a, howner⟩ := ensurePackage_grows (P := fun _ _ => True) w q (hj.2 q hq)
        fun _ _ => trivial
      simp only at hc
      split at hc
      · next g' owner he =>
        rw [he] at a howner
        obtain ⟨o, ho, hpath, _⟩ := howner owner rfl
        have hjoin : Path.join (some (g'.pathOf owner)) p.name = p :=
          Path.join_name_of_package? (by rw [ho.pathOf, hpath, hq])
        have hfree := lookup_of_addStep hc
        rw [Option.map_some, Element.new, hjoin] at hfree
        exact a.lookup_eq_none_of w hfree
      · cases hc

theorem ownerPath_ok {owner : Option Handle}
    (ho : ∀ o, owner = some o → ∃ p, g.LiveAt o p ∧ p.kind = .package) (name : String) :
    g.ownerPath name owner = .ok (owner.map g.pathOf) := by
  cases owner with
  | none => rfl
  | some o =>
    obtain ⟨p, hp, hk⟩ := ho o rfl
    rw [ownerPath, hp.1]
    simp only [hp.2, Element.isPackage_iff.mpr hk, Bool.not_true, Bool.or_self]
    rw [Option.map_some, hp.pathOf]
    rfl

theorem addStep_ok {e : Element} {owner : Option Handle} (hf : g.frozen = false)
    (hs : Path.IsSegment e.name)
    (ho : ∀ o, owner = some o → ∃ p, g.LiveAt o p ∧ p.kind = .package)
    (hfree : g.lookup (Path.join (owner.map g.pathOf) e.name) = none) :
    ∃ h, (g.addStep e owner).2 = .ok h := by
  have hadd : g.addElement e owner =
      .ok (g.push e owner (Path.join (owner.map g.pathOf) e.name)) := by
    simp [addElement, ownerPath_ok ho, hf, Path.isSimpleName_of_isSegment hs,
      Index.contains_eq_false_iff.mpr hfree]
    rfl
  exact ⟨_, by rw [addStep, hadd]⟩

/-- In the package that was found or made for it, an element can be added at a path that was free
before. -/
theorem addStep_ensured_ok (w : g.WellFormed) (hf : g.frozen = false) {p q : Path}
    (hp : p.fault? = none) (hq : p.package? = some q) (hfree : g.lookup p = none) {owner : Handle}
    (hok : (g.ensurePackage q).2 = .ok owner) (b : Body) :
    ∃ h, ((g.ensurePackage q).1.addStep (.new p.name b) (some owner)).2 = .ok h := by
  have hj := Path.fault?_eq_none_iff_join.mp hp
  obtain ⟨hgrows, howner⟩ := ensurePackage_grows (P := fun q' _ => q' = q ∨ q' ∈ q.ancestors) w q
    (hj.2 q hq) fun _ h => h
  obtain ⟨o, ho, hpath, hk⟩ := howner owner hok
  have hjoin : Path.join (some ((g.ensurePackage q).1.pathOf owner)) p.name = p :=
    Path.join_name_of_package? (by rw [ho.pathOf, hpath, hq])
  have hfree' := hgrows.lookup_eq_none w hfree fun he =>
    absurd (Path.length_lt_of_mem_ancestors (Path.mem_ancestors hq he)) (Nat.lt_irrefl _)
  refine addStep_ok (hgrows.frozen_eq.trans hf) hj.1 ?_ (hjoin.symm ▸ hfree')
  rintro o' ⟨⟩
  exact ⟨o, ho, hk⟩

theorem ensurePackage_ok (w : g.WellFormed) (hf : g.frozen = false) (p : Path)
    (hp : p.fault? = none)
    (hfree : ∀ h e, g.LiveAt h e → e.path = p ∨ e.path ∈ p.ancestors → e.kind = .package) :
    ∃ h, (g.ensurePackage p).2 = .ok h := by
  have hname := (Path.fault?_eq_none_iff_join.mp hp).1
  have hparent := (Path.fault?_eq_none_iff_join.mp hp).2
  fun_induction ensurePackage g p with
  | case1 p h hl hk => exact ⟨h, rfl⟩
  | case2 p h hl hk =>
    obtain ⟨e, he, rfl⟩ := (w.lookup_iff p h).mp hl
    refine absurd ?_ hk
    rw [he.1]
    exact Element.isPackage_iff.mpr (hfree h e he (.inl rfl))
  | case3 p hl hq =>
    have hjoin : Path.join none p.name = p := Path.join_name_of_package? hq
    exact addStep_ok hf hname (by simp) (hjoin.symm ▸ hl)
  | case4 p hl q hq g' owner hg ih =>
    have hadd := addStep_ensured_ok w hf hp hq hl (congrArg Prod.snd hg) (.package [])
    rwa [hg] at hadd
  | case5 p hl q hq g' fault hg ih =>
    have hfault := Path.fault?_eq_none_iff_join.mp (hparent q hq)
    obtain ⟨h, hh⟩ := ih (hparent q hq)
      (fun h e hl he => hfree h e hl (.inr (Path.mem_ancestors hq he))) hfault.1 hfault.2
    rw [hg] at hh
    cases hh

/-- A creation succeeds where the path is free and nothing but packages is around it. -/
theorem create_ok (w : g.WellFormed) (hf : g.frozen = false) {p : Path} (hp : p.fault? = none)
    (hl : g.lookup p = none)
    (hfree : ∀ h e, g.LiveAt h e → e.path ∈ p.ancestors → e.kind = .package) (b : Body) :
    ∃ h, (g.create p b).2 = .ok h := by
  have hj := Path.fault?_eq_none_iff_join.mp hp
  rw [create, hp]
  cases hq : p.package? with
  | none =>
    have hjoin : Path.join none p.name = p := Path.join_name_of_package? hq
    exact addStep_ok hf hj.1 (by simp) (hjoin.symm ▸ hl)
  | some q =>
    obtain ⟨owner, hok⟩ := ensurePackage_ok w hf q (hj.2 q hq)
      fun h e hlive he => hfree h e hlive (Path.mem_ancestors hq he)
    have hadd := addStep_ensured_ok w hf hp hq hl hok b
    simp only
    split
    · next g' owner' he =>
      rw [he] at hok hadd
      cases hok
      exact hadd
    · next g' fault he =>
      rw [he] at hok
      cases hok

theorem eq_singleton_of_forall_eq {α : Type} {a : α} {as : List α} (hn : as.Nodup) (hm : a ∈ as)
    (h : ∀ b ∈ as, b = a) : as = [a] := by
  have hs := List.eq_replicate_iff.mpr ⟨rfl, h⟩
  rw [hs, List.nodup_replicate] at hn
  rw [hs, Nat.le_antisymm hn (List.length_pos_of_mem hm)]
  rfl

theorem pathsOfKind_create (w : g.WellFormed) (ro : g.Rostered) {p : Path} {b : Body}
    (hb : b.children = []) {h : Handle} (hc : (g.create p b).2 = .ok h) {k : Kind}
    (hk : k ≠ .package) :
    (g.create p b).1.pathsOfKind k = g.pathsOfKind k ++ if b.kind = k then [p] else [] := by
  have a : Grows (fun q b' => b'.kind = .package ∨ q = p ∧ b' = b) g (g.create p b).1 :=
    grows_create w p (fun _ _ => .inl rfl) (.inr ⟨rfl, rfl⟩) hb
  by_cases hkind : b.kind = k
  · obtain ⟨ps, hps, hnew⟩ := a.pathsOfKind ro k
    obtain ⟨e, hl, hp, hbody⟩ := liveAt_create w hb hc
    have hcreated : p ∈ (g.create p b).1.pathsOfKind k :=
      (mem_pathsOfKind (a.rostered ro)).mpr ⟨h, e, hl, hp, (congrArg Body.kind hbody).trans hkind⟩
    have hfree : p ∉ g.pathsOfKind k := by
      intro hm
      obtain ⟨h', e', hl', rfl, -⟩ := (mem_pathsOfKind ro).mp hm
      have hnone := lookup_of_create w hc
      rw [w.lookup_path hl'] at hnone
      cases hnone
    have hnodup := nodup_pathsOfKind (a.wellFormed w) (a.rostered ro) k
    rw [hps] at hcreated hnodup
    rw [hps, if_pos hkind]
    congr 1
    refine eq_singleton_of_forall_eq (List.nodup_append.mp hnodup).2.1
      ((List.mem_append.mp hcreated).resolve_left hfree) fun q hq => ?_
    obtain ⟨b', hb', hk'⟩ := hnew q hq
    rcases hb' with hb' | ⟨hq, -⟩
    · exact absurd (hk'.symm.trans hb') hk
    · exact hq
  · rw [a.pathsOfKind_of_forall ro, if_neg hkind, List.append_nil]
    rintro q b' (hb' | ⟨-, rfl⟩) hk'
    · exact hk (hk'.symm.trans hb')
    · exact hkind hk'

/-- What is at a path in a graph of contents: a primitive type, a content, or a package around
one. -/
inductive Stock (contents : List (Path × Body)) : Path → Body → Prop
  | primitive {name : String} : name ∈ primitiveNames → Stock contents ⟨name⟩ .primitiveType
  | content {p : Path} {b : Body} : (p, b) ∈ contents → Stock contents p b
  | package {p q : Path} {b : Body} :
      (p, b) ∈ contents → q ∈ p.ancestors → Stock contents q (.package [])

theorem Stock.mono {contents more : List (Path × Body)} (h : contents ⊆ more) {p : Path} {b : Body}
    (s : Stock contents p b) : Stock more p b := by
  cases s with
  | primitive hn => exact .primitive hn
  | content hm => exact .content (h hm)
  | package hm hq => exact .package (h hm) hq

/-- Contents that fit into one graph: no two of them, nor a content and a package or a primitive
type, have the same path. -/
structure Compatible (contents : List (Path × Body)) : Prop where
  nodup : (contents.map Prod.fst).Nodup
  fault : ∀ c ∈ contents, c.1.fault? = none
  isContent : ∀ c ∈ contents, c.2.IsContent
  unique : ∀ p b b', Stock contents p b → Stock contents p b' → b = b'

def contentPaths (contents : List (Path × Body)) (k : Kind) : List Path :=
  (contents.filter (·.2.kind == k)).map Prod.fst

/-- A graph that holds contents, the packages around them and the primitive types, and never held
anything else. The contents of a kind came in their order. -/
structure Stocked (contents : List (Path × Body)) (g : Graph) : Prop where
  wellFormed : g.WellFormed
  rostered : g.Rostered
  allAlive : g.AllAlive
  open_ : g.frozen = false
  kept : ∀ p b, Stock contents p b → ∃ h e, g.LiveAt h e ∧ e.path = p ∧ e.body.hull = b
  gained : ∀ h e, g.LiveAt h e → Stock contents e.path e.body.hull
  order : ∀ k, k ≠ .package → k ≠ .primitiveType → g.pathsOfKind k = contentPaths contents k

theorem Stocked.unique {contents : List (Path × Body)} (s : Stocked contents g) {p : Path}
    {b b' : Body} (hb : Stock contents p b) (hb' : Stock contents p b') : b = b' := by
  obtain ⟨h, e, hl, hp, rfl⟩ := s.kept p b hb
  obtain ⟨h', e', hl', hp', rfl⟩ := s.kept p b' hb'
  obtain rfl := s.wellFormed.handle_eq hl hl' (hp.trans hp'.symm)
  rw [hl.unique hl']

theorem Stock.mem {contents : List (Path × Body)} {p : Path} {b : Body} (s : Stock contents p b)
    (hb : b.IsContent) : (p, b) ∈ contents := by
  cases s with
  | primitive _ => exact absurd rfl hb.not_primitive
  | content hm => exact hm
  | package _ _ => exact absurd rfl hb.not_package

theorem live_primitive (r : Registry) {name : String} (hn : name ∈ primitiveNames) :
    ∃ h e, (new r).LiveAt h e ∧ e.path = ⟨name⟩ ∧ e.body.hull = .primitiveType := by
  have hnew : (new r).elements.toList = primitiveNames.map fun name =>
      (Element.new name .primitiveType).freeze.attach none ⟨name⟩ := rfl
  have hm := List.mem_map_of_mem (f := fun name =>
    (Element.new name .primitiveType).freeze.attach none ⟨name⟩) hn
  rw [← hnew] at hm
  obtain ⟨i, hi⟩ := List.mem_iff_getElem?.mp hm
  rw [Array.getElem?_toList] at hi
  exact ⟨⟨i⟩, _, ⟨hi, rfl⟩, rfl, rfl⟩

theorem stocked_new (r : Registry) : Stocked [] (new r) := by
  have a : Grows (Stock []) { registry := r } (new r) := grows_new (fun _ hn => .primitive hn) r
  have w := wellFormed_new r
  constructor
  case wellFormed => exact w
  case rostered => exact rostered_new r
  case allAlive =>
    exact a.allAlive fun h e he => absurd (slot_lt_of_element? he) (Nat.not_lt_zero _)
  case open_ => exact a.frozen_eq
  case kept =>
    intro p b hs
    cases hs with
    | primitive hn => exact live_primitive r hn
    | content hm => cases hm
    | package hm => cases hm
  case gained =>
    intro h e hl
    cases a.gained hl with
    | inl hold =>
      obtain ⟨e', hl', _⟩ := hold
      exact absurd hl' (not_liveAt_empty r h e')
    | inr hnew => exact hnew
  case order =>
    intro k _ hk
    rw [a.pathsOfKind_of_forall (rostered_empty r) fun q b hs hb => ?_]
    · rfl
    · cases hs with
      | primitive _ => exact hk hb.symm
      | content hm => cases hm
      | package hm => cases hm

namespace Stocked

variable {contents : List (Path × Body)} {p : Path} {b : Body}

theorem create (s : Stocked contents g) (hb : b.IsContent) {h : Handle}
    (hc : (g.create p b).2 = .ok h) : Stocked (contents ++ [(p, b)]) (g.create p b).1 := by
  have hchildless := Body.children_of_kind_ne hb.not_package
  have hmono : contents ⊆ contents ++ [(p, b)] := List.subset_append_left _ _
  have hnew : (p, b) ∈ contents ++ [(p, b)] := List.mem_append_right _ List.mem_cons_self
  have a : Grows (Stock (contents ++ [(p, b)])) g (g.create p b).1 :=
    grows_create s.wellFormed p (fun q hq => .package hnew hq) (.content hnew) hchildless
  have w := a.wellFormed s.wellFormed
  obtain ⟨e, hl, hpath, hbody⟩ := liveAt_create s.wellFormed hchildless hc
  constructor
  case wellFormed => exact w
  case rostered => exact a.rostered s.rostered
  case allAlive => exact a.allAlive s.allAlive
  case open_ => exact a.frozen_eq.trans s.open_
  case kept =>
    have hold : ∀ q b', Stock contents q b' →
        ∃ h e, (g.create p b).1.LiveAt h e ∧ e.path = q ∧ e.body.hull = b' := by
      intro q b' hs
      obtain ⟨h', e', hl', rfl, rfl⟩ := s.kept q b' hs
      obtain ⟨e'', hl'', hp'', hb''⟩ := a.kept hl'
      exact ⟨h', e'', hl'', hp'', hb''⟩
    intro q b' hs
    cases hs with
    | primitive hn => exact hold _ _ (.primitive hn)
    | content hm =>
      rcases List.mem_append.mp hm with hm | hm
      · exact hold _ _ (.content hm)
      · cases List.mem_singleton.mp hm
        exact ⟨h, e, hl, hpath, by rw [hbody, Body.hull_of_childless hchildless]⟩
    | package hm hq =>
      rcases List.mem_append.mp hm with hm | hm
      · exact hold _ _ (.package hm hq)
      · cases List.mem_singleton.mp hm
        obtain ⟨o, x, hx, hpx, hk⟩ := w.live_ancestor hl (hpath ▸ hq)
        exact ⟨o, x, hx, hpx, Body.hull_of_package hk⟩
  case gained =>
    intro h' e' hl'
    cases a.gained hl' with
    | inl hold =>
      obtain ⟨e₀, hl₀, hp₀, hb₀⟩ := hold
      rw [← hp₀, ← hb₀]
      exact (s.gained h' e₀ hl₀).mono hmono
    | inr hnew => exact hnew
  case order =>
    intro k hpackage hprimitive
    rw [pathsOfKind_create s.wellFormed s.rostered hchildless hc hpackage,
      s.order k hpackage hprimitive, contentPaths, contentPaths, List.filter_append, List.map_append]
    by_cases hk : b.kind = k <;> simp [hk]

theorem create_ok {rest : List (Path × Body)} (s : Stocked contents g)
    (hc : Compatible (contents ++ (p, b) :: rest)) : ∃ h, (g.create p b).2 = .ok h := by
  have hnew : (p, b) ∈ contents ++ (p, b) :: rest := List.mem_append_right _ List.mem_cons_self
  have hb := hc.isContent _ hnew
  have hmono : contents ⊆ contents ++ (p, b) :: rest := List.subset_append_left _ _
  have hfree : g.lookup p = none := by
    cases hl : g.lookup p with
    | none => rfl
    | some h =>
      obtain ⟨e, he, rfl⟩ := (s.wellFormed.lookup_iff p h).mp hl
      have hs := s.gained h e he
      have heq := hc.unique _ _ _ (hs.mono hmono) (.content hnew)
      have hm : (e.path, b) ∈ contents := (heq ▸ hs).mem hb
      have hn := hc.nodup
      rw [List.map_append, List.nodup_append] at hn
      exact absurd rfl (hn.2.2 _ (List.mem_map_of_mem hm) _ List.mem_cons_self)
  refine Graph.create_ok s.wellFormed s.open_ (hc.fault _ hnew) hfree ?_ b
  intro h e hl he
  have heq := hc.unique _ _ _ ((s.gained h e hl).mono hmono) (.package hnew he)
  exact (Body.kind_hull e.body).symm.trans (congrArg Body.kind heq)

end Stocked

end Graph

namespace Entry

def content (r : Registry) (e : Entry) : Except Diagnostic (Path × Body) :=
  (e.body r).map fun b => (e.entity.path, b)

theorem content_eq_ok {r : Registry} {e : Entry} {c : Path × Body} :
    e.content r = .ok c ↔ e.body r = .ok c.2 ∧ e.entity.path = c.1 := by
  rw [content, map_eq_ok]
  constructor
  · rintro ⟨b, hb, rfl⟩
    exact ⟨hb, rfl⟩
  · rintro ⟨hb, hp⟩
    exact ⟨c.2, hb, Prod.ext hp rfl⟩

theorem isContent_map {α : Type} {path : Path} {o : Option α} {body : α → Body} {b : Body}
    (h : require path (o.map body) = .ok b) (hb : ∀ a, (body a).IsContent) : b.IsContent := by
  cases o with
  | none => cases h
  | some a =>
    cases h
    exact hb a

theorem isContent_body {r : Registry} {e : Entry} {b : Body} (h : e.body r = .ok b) :
    b.IsContent := by
  rw [body] at h
  cases hk : e.kind with
  | extension k =>
    rw [hk] at h
    exact isContent_map h fun _ => ⟨Kind.noConfusion, Kind.noConfusion⟩
  | core c =>
    rw [hk] at h
    cases c with
    | mapping =>
      obtain ⟨m, -, rfl⟩ := map_eq_ok.mp h
      exact ⟨Kind.noConfusion, Kind.noConfusion⟩
    | _ => exact isContent_map h fun _ => ⟨Kind.noConfusion, Kind.noConfusion⟩

end Entry

namespace Graph

variable {g : Graph}

theorem registry_create (w : g.WellFormed) {p : Path} {b : Body} (hb : b.IsContent) :
    (g.create p b).1.registry = g.registry :=
  (grows_create (P := fun _ _ => True) w p (fun _ _ => trivial) trivial
    (Body.children_of_kind_ne hb.not_package)).registry_eq

theorem registerEntry_of_body {e : Entry} {b : Body} (hb : e.body g.registry = .ok b) :
    registerEntry e g = ((g.create e.entity.path b).1,
      match (g.create e.entity.path b).2 with
      | .ok _ => none
      | .error fault => some (.ofError fault none)) := by
  simp only [registerEntry, hb]
  generalize g.create e.entity.path b = created
  obtain ⟨g', outcome⟩ := created
  cases outcome <;> rfl

/-- A registration without faults puts the contents of all entries into the graph. -/
theorem Stocked.register {entries : List Entry} {contents : List (Path × Body)}
    (s : Stocked contents g) (h : (register entries g).2 = []) :
    ∃ more, entries.mapM (Entry.content g.registry) = .ok more ∧
      Stocked (contents ++ more) (register entries g).1 ∧
      (register entries g).1.registry = g.registry := by
  induction entries generalizing g contents with
  | nil => exact ⟨[], rfl, (List.append_nil contents).symm ▸ s, rfl⟩
  | cons e entries ih =>
    simp only [Graph.register, List.append_eq_nil_iff, Option.toList_eq_nil_iff] at h ⊢
    obtain ⟨hd, hds⟩ := h
    cases hb : e.body g.registry with
    | error d =>
      rw [registerEntry, hb] at hd
      cases hd
    | ok b =>
      have hcontent := Entry.isContent_body hb
      rw [registerEntry_of_body hb] at hd hds ⊢
      cases hc : (g.create e.entity.path b).2 with
      | error fault =>
        rw [hc] at hd
        cases hd
      | ok h' =>
        have hr := registry_create (p := e.entity.path) s.wellFormed hcontent
        obtain ⟨more, hm, hs, hreg⟩ := ih (s.create hcontent hc) hds
        refine ⟨(e.entity.path, b) :: more, ?_, ?_, hreg.trans hr⟩
        · have he : e.content g.registry = .ok (e.entity.path, b) :=
            Entry.content_eq_ok.mpr ⟨hb, rfl⟩
          rw [List.mapM_cons, he, ← hr, hm]
          rfl
        · rwa [List.append_assoc, List.singleton_append] at hs

theorem Stocked.register_ok {entries : List Entry} {contents more : List (Path × Body)}
    (s : Stocked contents g) (hm : entries.mapM (Entry.content g.registry) = .ok more)
    (hc : Compatible (contents ++ more)) : (Graph.register entries g).2 = [] := by
  induction entries generalizing g contents more with
  | nil => rfl
  | cons e entries ih =>
    rw [List.mapM_cons] at hm
    obtain ⟨⟨p, b⟩, he, hm⟩ := bind_eq_ok.mp hm
    obtain ⟨more, hmore, hm⟩ := bind_eq_ok.mp hm
    cases hm
    obtain ⟨hb, hp⟩ := Entry.content_eq_ok.mp he
    simp only at hb hp
    subst hp
    have hcontent := Entry.isContent_body hb
    obtain ⟨h, hok⟩ := s.create_ok hc
    have hr := registry_create (p := e.entity.path) s.wellFormed hcontent
    rw [← hr] at hmore
    rw [← List.singleton_append, ← List.append_assoc] at hc
    have ih := ih (s.create hcontent hok) hmore hc
    simp only [Graph.register, registerEntry_of_body hb, hok, ih]
    rfl

end Graph
end ModelGraph
