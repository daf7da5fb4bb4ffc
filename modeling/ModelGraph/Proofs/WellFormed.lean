import ModelGraph.Proofs.GraphUpdates
import ModelGraph.Proofs.PathAlgebra

namespace ModelGraph

namespace Body

@[simp]
theorem kind_mapChildren (f : List Handle → List Handle) (b : Body) :
    (b.mapChildren f).kind = b.kind := by
  cases b <;> rfl

@[simp]
theorem links_mapChildren (f : List Handle → List Handle) (b : Body) :
    (b.mapChildren f).links = b.links := by
  cases b <;> rfl

theorem children_mapChildren (f : List Handle → List Handle) {b : Body} (hb : b.kind = .package) :
    (b.mapChildren f).children = f b.children := by
  cases b <;> first | rfl | cases hb

theorem children_of_kind_ne {b : Body} (hb : b.kind ≠ .package) : b.children = [] := by
  cases b <;> first | rfl | exact absurd rfl hb

theorem children_mapChildren_subset {f : List Handle → List Handle} (hf : ∀ l, f l ⊆ l) (b : Body) :
    (b.mapChildren f).children ⊆ b.children := by
  cases b with
  | package children => exact hf children
  | _ => exact List.Subset.refl _

@[simp]
theorem kind_rebind (f : Rebinding) (b : Body) : (b.rebind f).kind = b.kind := by
  cases b with
  | extension x => cases x <;> rfl
  | _ => rfl

@[simp]
theorem children_rebind (f : Rebinding) (b : Body) : (b.rebind f).children = b.children := by
  cases b <;> rfl

@[simp]
theorem kind_prune (isDead : Handle → Bool) (b : Body) : (b.prune isDead).kind = b.kind := by
  cases b <;> rfl

@[simp]
theorem children_prune (isDead : Handle → Bool) (b : Body) :
    (b.prune isDead).children = b.children := by
  cases b <;> rfl

end Body

/-- What places an element in a graph. -/
structure ElementPlace where
  name : String
  path : Path
  package : Option Handle
  deleted : Bool
  children : List Handle

namespace Element

def place (e : Element) : ElementPlace :=
  ⟨e.name, e.path, e.package, e.deleted, e.body.children⟩

def post (e : Element) : ElementPlace × Kind := (e.place, e.kind)

theorem isPackage_iff {e : Element} : e.isPackage = true ↔ e.kind = .package := by
  simp [isPackage]

theorem kind_of_mem_children {e : Element} {h : Handle} (hm : h ∈ e.body.children) :
    e.kind = .package := by
  obtain ⟨name, path, owner, body⟩ := e
  cases body with
  | package children => rfl
  | _ => cases hm

theorem post_eq_of_body {e e' : Element} (hn : e'.name = e.name) (hp : e'.path = e.path)
    (ho : e'.package = e.package) (hd : e'.deleted = e.deleted) (hk : e'.body.kind = e.body.kind)
    (hc : e'.body.children = e.body.children) : e'.post = e.post := by
  simp only [post, place, kind, hn, hp, ho, hd, hk, hc]

theorem post_prune (isDead : Handle → Bool) (e : Element) : (e.prune isDead).1.post = e.post := by
  simp only [prune]
  split <;> exact post_eq_of_body rfl rfl rfl rfl (Body.kind_prune _ _) (Body.children_prune _ _)

end Element

/-- The cleaners of a registry leave every body its kind. -/
def Registry.KeepsKinds (r : Registry) : Prop :=
  ∀ clean ∈ r.cleaners, ∀ isDead x y, clean isDead x = some y → y.kind = x.kind

namespace Graph

/-- The element at a handle, if it is alive. -/
def LiveAt (g : Graph) (h : Handle) (e : Element) : Prop := g.element? h = some e ∧ e.deleted = false

/-- The index holds every element that is alive under its path, and a package lists each element
that it owns once. Owners are packages that are alive and older than what they own, and the path of
an element is that of its owner with its name. -/
structure WellFormed (g : Graph) : Prop where
  lookup_iff : ∀ p h, g.lookup p = some h ↔ ∃ e, g.LiveAt h e ∧ e.path = p
  owner : ∀ h e o, g.LiveAt h e → e.package = some o →
    ∃ p, g.LiveAt o p ∧ p.kind = .package ∧ o.slot < h.slot ∧ p.body.children.count h = 1
  owned : ∀ o p h, g.element? o = some p → h ∈ p.body.children →
    ∃ e, g.LiveAt h e ∧ e.package = some o
  path_eq : ∀ h e, g.LiveAt h e → e.path = Path.join (e.package.map g.pathOf) e.name
  segment : ∀ h e, g.LiveAt h e → Path.IsSegment e.name

/-- The roster holds every element that is alive, each once and under its kind. -/
structure Rostered (g : Graph) : Prop where
  nodup : (g.roster.map Prod.snd).Nodup
  mem_iff : ∀ k h, (k, h) ∈ g.roster ↔ ∃ e, g.LiveAt h e ∧ e.kind = k

variable {g g' : Graph}

theorem LiveAt.unique {h : Handle} {e e' : Element} (hl : g.LiveAt h e) (hl' : g.LiveAt h e') :
    e = e' :=
  Option.some.inj (hl.1.symm.trans hl'.1)

theorem LiveAt.pathOf {h : Handle} {e : Element} (hl : g.LiveAt h e) : g.pathOf h = e.path := by
  rw [Graph.pathOf, hl.1]

namespace WellFormed

theorem lookup_path (w : g.WellFormed) {h : Handle} {e : Element} (hl : g.LiveAt h e) :
    g.lookup e.path = some h :=
  (w.lookup_iff e.path h).mpr ⟨e, hl, rfl⟩

theorem handle_eq (w : g.WellFormed) {h h' : Handle} {e e' : Element} (hl : g.LiveAt h e)
    (hl' : g.LiveAt h' e') (hp : e.path = e'.path) : h = h' := by
  have ha := w.lookup_path hl
  rw [hp, w.lookup_path hl'] at ha
  exact (Option.some.inj ha).symm

theorem mem_values_iff (w : g.WellFormed) {h : Handle} :
    h ∈ g.index.values ↔ ∃ e, g.LiveAt h e := by
  rw [Index.mem_values_iff]
  constructor
  · rintro ⟨p, hp⟩
    obtain ⟨e, hl, _⟩ := (w.lookup_iff p h).mp hp
    exact ⟨e, hl⟩
  · rintro ⟨e, hl⟩
    exact ⟨e.path, w.lookup_path hl⟩

theorem values_nodup (w : g.WellFormed) : g.index.values.Nodup := by
  apply Index.values_nodup
  intro p q h hp hq
  obtain ⟨e, hl, rfl⟩ := (w.lookup_iff p h).mp hp
  obtain ⟨e', hl', rfl⟩ := (w.lookup_iff q h).mp hq
  rw [hl.unique hl']

theorem element?_updateLive (w : g.WellFormed) (f : Element → Element) (h : Handle) :
    (g.updateLive f).element? h =
      (g.element? h).map fun e => if e.deleted then e else f e := by
  rw [updateLive, element?_foldl_update (fun _ => f) w.values_nodup g h]
  cases he : g.element? h with
  | none => simp
  | some e =>
    simp only [Option.map_some]
    by_cases hd : e.deleted = true
    · have hnot : h ∉ g.index.values := by
        intro hm
        obtain ⟨e', hl⟩ := w.mem_values_iff.mp hm
        have heq := Option.some.inj (he.symm.trans hl.1)
        rw [heq, hl.2] at hd
        cases hd
      rw [if_neg hnot, if_pos hd]
    · have hm : h ∈ g.index.values := w.mem_values_iff.mpr ⟨e, he, by simpa using hd⟩
      rw [if_pos hm, if_neg hd]

theorem liveAt_updateLive (w : g.WellFormed) {f : Element → Element}
    (hf : ∀ e, (f e).deleted = e.deleted) {h : Handle} {e' : Element} :
    (g.updateLive f).LiveAt h e' ↔ ∃ e, g.LiveAt h e ∧ e' = f e := by
  rw [LiveAt, w.element?_updateLive, Option.map_eq_some_iff]
  constructor
  · rintro ⟨⟨e, he, rfl⟩, hd⟩
    by_cases hde : e.deleted = true
    · rw [if_pos hde, hde] at hd
      cases hd
    · exact ⟨e, ⟨he, by simpa using hde⟩, if_neg hde⟩
  · rintro ⟨e, ⟨he, hd⟩, rfl⟩
    exact ⟨⟨e, he, if_neg (by simp [hd])⟩, (hf e).trans hd⟩

theorem package?_path (w : g.WellFormed) {h : Handle} {e : Element} (hl : g.LiveAt h e) :
    e.path.package? = e.package.map g.pathOf := by
  rw [w.path_eq h e hl, Path.package?_join (w.segment h e hl)]

theorem name_path (w : g.WellFormed) {h : Handle} {e : Element} (hl : g.LiveAt h e) :
    e.path.name = e.name := by
  rw [w.path_eq h e hl, Path.name_join (w.segment h e hl)]

theorem fault?_path (w : g.WellFormed) {h : Handle} {e : Element} (hl : g.LiveAt h e) :
    e.path.fault? = none := by
  -- The owner of an element is older than the element.
  induction hn : h.slot using Nat.strongRecOn generalizing h e with
  | ind n ih =>
    rw [w.path_eq h e hl]
    refine Path.fault?_join ?_ (w.segment h e hl)
    intro q hq
    obtain ⟨o, ho, rfl⟩ := Option.map_eq_some_iff.mp hq
    obtain ⟨p, hp, -, hlt, -⟩ := w.owner h e o hl ho
    rw [hp.pathOf]
    exact ih o.slot (hn ▸ hlt) hp rfl

theorem owner_of_package? (w : g.WellFormed) {h : Handle} {e : Element} (hl : g.LiveAt h e)
    {q : Path} (hq : e.path.package? = some q) :
    ∃ o p, e.package = some o ∧ g.LiveAt o p ∧ p.path = q := by
  rw [w.package?_path hl, Option.map_eq_some_iff] at hq
  obtain ⟨o, ho, rfl⟩ := hq
  obtain ⟨p, hp, _⟩ := w.owner h e o hl ho
  exact ⟨o, p, ho, hp, hp.pathOf.symm⟩

end WellFormed

theorem resolve_eq_ok (w : g.WellFormed) {l : Link} {h : Handle} :
    g.resolve l = .ok h ↔ ∃ e, g.LiveAt h e ∧ e.path = l.path ∧ l.family.admits e.body = true := by
  rw [resolve]
  constructor
  · intro hr
    split at hr
    · cases hr
    · next h' hl =>
      obtain ⟨e, he, hp⟩ := (w.lookup_iff l.path h').mp hl
      rw [he.1] at hr
      simp only at hr
      split at hr
      · next ha =>
        cases hr
        exact ⟨e, he, hp, ha⟩
      · cases hr
  · rintro ⟨e, he, hp, ha⟩
    rw [(w.lookup_iff l.path h).mpr ⟨e, he, hp⟩]
    simp only [he.1, ha, if_true]

theorem mem_live_of_values (hv : ∀ h, h ∈ g.index.values ↔ ∃ e, g.LiveAt h e) {h : Handle}
    {e : Element} : (h, e) ∈ g.live ↔ g.LiveAt h e := by
  simp only [live, List.mem_filterMap, Option.map_eq_some_iff, Prod.mk.injEq]
  constructor
  · rintro ⟨h', hm, e', he', rfl, rfl⟩
    obtain ⟨e'', hl⟩ := (hv h').mp hm
    rwa [Option.some.inj (he'.symm.trans hl.1)]
  · intro hl
    exact ⟨h, (hv h).mpr ⟨e, hl⟩, e, hl.1, rfl, rfl⟩

theorem mem_ofKind (ro : g.Rostered) {k : Kind} {h : Handle} {e : Element} :
    (h, e) ∈ g.ofKind k ↔ g.LiveAt h e ∧ e.kind = k := by
  simp only [ofKind, List.mem_filterMap, List.mem_filter, beq_iff_eq, Option.map_eq_some_iff,
    Prod.mk.injEq]
  constructor
  · rintro ⟨⟨k', h'⟩, ⟨hr, rfl⟩, e', he', rfl, rfl⟩
    obtain ⟨e, hl, hk⟩ := (ro.mem_iff k' h').mp hr
    obtain rfl := Option.some.inj (he'.symm.trans hl.1)
    exact ⟨hl, hk⟩
  · rintro ⟨hl, hk⟩
    exact ⟨(k, h), ⟨(ro.mem_iff k h).mpr ⟨e, hl, hk⟩, rfl⟩, e, hl.1, rfl, rfl⟩

/-- Two graphs that differ within their elements, but not in what `π` tells of each. -/
structure Keeps {α : Type} (π : Element → α) (g g' : Graph) : Prop where
  index : g'.index = g.index
  roster : g'.roster = g.roster
  registry : g'.registry = g.registry
  element : ∀ h, (g'.element? h).map π = (g.element? h).map π

namespace Keeps

variable {α : Type} {π : Element → α}

theorem refl (g : Graph) : Keeps π g g := ⟨rfl, rfl, rfl, fun _ => rfl⟩

theorem symm (s : Keeps π g g') : Keeps π g' g :=
  ⟨s.index.symm, s.roster.symm, s.registry.symm, fun h => (s.element h).symm⟩

theorem trans {g'' : Graph} (s : Keeps π g g') (s' : Keeps π g' g'') : Keeps π g g'' :=
  ⟨s'.index.trans s.index, s'.roster.trans s.roster, s'.registry.trans s.registry,
    fun h => (s'.element h).trans (s.element h)⟩

theorem map {β : Type} (s : Keeps π g g') (f : α → β) : Keeps (f ∘ π) g g' := by
  refine ⟨s.index, s.roster, s.registry, ?_⟩
  intro h
  rw [← Option.map_map, s.element h, Option.map_map]

theorem place (s : Keeps Element.post g g') : Keeps Element.place g g' := s.map Prod.fst

theorem element? (s : Keeps π g g') {h : Handle} {e : Element} (he : g.element? h = some e) :
    ∃ e', g'.element? h = some e' ∧ π e' = π e := by
  have hp := s.element h
  rw [he, Option.map_some, Option.map_eq_some_iff] at hp
  exact hp

theorem update {f : Element → Element} {h : Handle}
    (hf : ∀ e, g.element? h = some e → π (f e) = π e) : Keeps π g (g.update f h) where
  index := rfl
  roster := rfl
  registry := rfl
  element := by
    intro h'
    rw [element?_update]
    by_cases hh : h' = h
    · subst hh
      rw [if_pos rfl]
      cases he : g.element? h' with
      | none => rfl
      | some e => exact congrArg some (hf e he)
    · rw [if_neg hh]

theorem foldl {β : Type} {step : Graph → β → Graph} {l : List β}
    (hs : ∀ g, ∀ b ∈ l, Keeps π g (step g b)) (g : Graph) : Keeps π g (l.foldl step g) := by
  induction l generalizing g with
  | nil => exact refl g
  | cons b l ih =>
    exact (hs g b (by simp)).trans (ih (fun g c hc => hs g c (List.mem_cons_of_mem b hc)) (step g b))

theorem updateLive {f : Element → Element} (hf : ∀ e, π (f e) = π e) (g : Graph) :
    Keeps π g (g.updateLive f) :=
  foldl (fun _ _ _ => update fun e _ => hf e) g

end Keeps

theorem keeps_freeze (g : Graph) : Keeps Element.post g g.freeze where
  index := rfl
  roster := rfl
  registry := rfl
  element := by
    intro h
    rw [element?_freeze, Option.map_map]
    rfl

theorem keeps_resolveAll (g : Graph) : Keeps Element.post g g.resolveAll.1 := by
  apply Keeps.updateLive
  intro e
  exact Element.post_eq_of_body rfl rfl rfl rfl (Body.kind_rebind _ _) (Body.children_rebind _ _)

theorem keeps_repoint (moves : Moves) (g : Graph) : Keeps Element.post g (g.repoint moves) := by
  apply Keeps.updateLive
  intro e
  split
  · exact Element.post_eq_of_body rfl rfl rfl rfl (Body.kind_rebind _ _) (Body.children_rebind _ _)
  · rfl

theorem keeps_pruneAt (isDead : Handle → Bool) (state : Graph × Nat) (h : Handle) :
    Keeps Element.post state.1 (pruneAt isDead state h).1 := by
  unfold pruneAt
  cases he : state.1.element? h with
  | none => exact .refl state.1
  | some e =>
    apply Keeps.update
    intro e' he'
    obtain rfl := Option.some.inj (he.symm.trans he')
    exact e.post_prune isDead

theorem keeps_prune (isDead : Handle → Bool) (hs : List Handle) (state : Graph × Nat) :
    Keeps Element.post state.1 (hs.foldl (pruneAt isDead) state).1 := by
  induction hs generalizing state with
  | nil => exact .refl state.1
  | cons h hs ih => exact (keeps_pruneAt isDead state h).trans (ih _)

theorem place_cleaned (isDead : Handle → Bool) (clean : Cleaner) (e : Element) :
    (cleaned isDead clean e).place = e.place := by
  unfold cleaned
  split
  · next x hx =>
    split
    · simp [Element.place, Element.edit, Element.touch, hx, Body.children]
    · rfl
  · rfl

theorem kind_cleaned {isDead : Handle → Bool} {clean : Cleaner}
    (hc : ∀ x y, clean isDead x = some y → y.kind = x.kind) (e : Element) :
    (cleaned isDead clean e).kind = e.kind := by
  unfold cleaned
  split
  · next x hx =>
    split
    · next y hy => simp [Element.kind, Element.edit, hx, Body.kind, hc x y hy]
    · rfl
  · rfl

theorem keeps_sweep (g : Graph) : Keeps Element.place g g.sweep.1 := by
  refine (keeps_prune g.isDeleted g.index.values (g, 0)).place.trans (Keeps.foldl ?_ _)
  intro g' clean _
  exact Keeps.updateLive (place_cleaned g.isDeleted clean) g'

theorem keeps_sweep_kind (hr : g.registry.KeepsKinds) : Keeps Element.post g g.sweep.1 := by
  refine (keeps_prune g.isDeleted g.index.values (g, 0)).trans (Keeps.foldl ?_ _)
  intro g' clean hc
  apply Keeps.updateLive
  intro e
  exact Prod.ext (place_cleaned g.isDeleted clean e) (kind_cleaned (hr clean hc g.isDeleted) e)

namespace Keeps

theorem liveAt (s : Keeps Element.place g g') {h : Handle} {e : Element} (hl : g.LiveAt h e) :
    ∃ e', g'.LiveAt h e' ∧ e'.place = e.place := by
  obtain ⟨e', he', hp⟩ := s.element? hl.1
  exact ⟨e', ⟨he', (congrArg ElementPlace.deleted hp).trans hl.2⟩, hp⟩

theorem pathOf (s : Keeps Element.place g g') : g'.pathOf = g.pathOf := by
  funext h
  cases he : g.element? h with
  | none =>
    have hp := s.element h
    rw [he, Option.map_none, Option.map_eq_none_iff] at hp
    rw [Graph.pathOf, Graph.pathOf, he, hp]
  | some e =>
    obtain ⟨e', he', hp⟩ := s.element? he
    rw [Graph.pathOf, Graph.pathOf, he, he']
    exact congrArg ElementPlace.path hp

theorem wellFormed (s : Keeps Element.place g g') (w : g.WellFormed) : g'.WellFormed where
  lookup_iff := by
    intro p h
    rw [lookup, s.index]
    refine (w.lookup_iff p h).trans ⟨?_, ?_⟩
    · rintro ⟨e, hl, rfl⟩
      obtain ⟨e', hl', hp⟩ := s.liveAt hl
      exact ⟨e', hl', congrArg ElementPlace.path hp⟩
    · rintro ⟨e', hl', rfl⟩
      obtain ⟨e, hl, hp⟩ := s.symm.liveAt hl'
      exact ⟨e, hl, congrArg ElementPlace.path hp⟩
  owner := by
    intro h e' o hl' ho
    obtain ⟨e, hl, hp⟩ := s.symm.liveAt hl'
    obtain ⟨p, hlp, -, hlt, hc⟩ := w.owner h e o hl ((congrArg ElementPlace.package hp).trans ho)
    obtain ⟨p', hlp', hpp⟩ := s.liveAt hlp
    have hch : p'.body.children = p.body.children := congrArg ElementPlace.children hpp
    rw [← hch] at hc
    have hm : h ∈ p'.body.children := List.count_pos_iff.mp (hc ▸ Nat.one_pos)
    exact ⟨p', hlp', Element.kind_of_mem_children hm, hlt, hc⟩
  owned := by
    intro o p' h hp' hm
    obtain ⟨p, hp, hpp⟩ := s.symm.element? hp'
    have hch : p.body.children = p'.body.children := congrArg ElementPlace.children hpp
    obtain ⟨e, hl, ho⟩ := w.owned o p h hp (hch ▸ hm)
    obtain ⟨e', hl', hpe⟩ := s.liveAt hl
    exact ⟨e', hl', (congrArg ElementPlace.package hpe).trans ho⟩
  path_eq := by
    intro h e' hl'
    obtain ⟨e, hl, hp⟩ := s.symm.liveAt hl'
    have heq := w.path_eq h e hl
    simp only [Element.place, ElementPlace.mk.injEq] at hp
    rw [s.pathOf, ← hp.1, ← hp.2.1, ← hp.2.2.1]
    exact heq
  segment := by
    intro h e' hl'
    obtain ⟨e, hl, hp⟩ := s.symm.liveAt hl'
    have hn : e.name = e'.name := congrArg ElementPlace.name hp
    exact hn ▸ w.segment h e hl

theorem rostered (s : Keeps Element.post g g') (w : g.Rostered) : g'.Rostered where
  nodup := s.roster ▸ w.nodup
  mem_iff := by
    intro k h
    rw [s.roster]
    refine (w.mem_iff k h).trans ⟨?_, ?_⟩
    · rintro ⟨e, hl, rfl⟩
      obtain ⟨e', he', hp⟩ := s.element? hl.1
      have hd : e'.deleted = e.deleted := congrArg (fun x => x.1.deleted) hp
      exact ⟨e', ⟨he', hd.trans hl.2⟩, congrArg Prod.snd hp⟩
    · rintro ⟨e', hl', rfl⟩
      obtain ⟨e, he, hp⟩ := s.symm.element? hl'.1
      have hd : e.deleted = e'.deleted := congrArg (fun x => x.1.deleted) hp
      exact ⟨e, ⟨he, hd.trans hl'.2⟩, congrArg Prod.snd hp⟩

end Keeps

end Graph
end ModelGraph
