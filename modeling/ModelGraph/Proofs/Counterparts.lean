import ModelGraph.Proofs.MirroredWiring

namespace ModelGraph

namespace Body

variable {μ : Path → Path} {b b' : Body}

theorem Moved.of_hull (h : b.hull.Moved μ b'.hull) : b.Moved μ b' := by
  constructor
  case outline => rw [← outline_hull b', h.outline, outline_hull]
  case links => simpa using h.links

def ids? (b : Body) : Option (List String) := b.mapping?.map Mapping.ids

theorem ids?_unwire (b : Body) : b.unwire.ids? = b.ids? := by
  cases b with
  | mapping m =>
    have hid : ∀ s : SetImplementation, s.unwire.id = s.id := fun _ => rfl
    simp [ids?, mapping?, unwire, Mapping.unwire, Mapping.ids, hid]
  | _ => rfl

theorem ids?_rebind (f : Rebinding) (b : Body) : (b.rebind f).ids? = b.ids? := by
  cases b with
  | mapping m =>
    have hid : ∀ s : SetImplementation, (s.rebind f).id = s.id := fun _ => rfl
    simp [ids?, mapping?, rebind, Mapping.rebind, Mapping.ids, hid]
  | _ => rfl

theorem ids?_hull (b : Body) : b.hull.ids? = b.ids? := by
  cases b <;> rfl

theorem ids?_standard (b : Body) : b.standard.ids? = b.ids? := by
  cases b <;> rfl

/-- What tells the same of a mapping when it is wired or rebound, and nothing of other bodies. -/
structure Steady {α : Type} (f : Rebinding) (V : Body → Option α) : Prop where
  hull : ∀ b, V b.hull = V b
  unwire : ∀ b, V b.unwire = V b
  rebind : ∀ b, V (b.rebind f) = V b
  none : ∀ b, b.kind ≠ .mapping → V b = .none

theorem steady_ids? (f : Rebinding) : Steady f ids? where
  hull := ids?_hull
  unwire := ids?_unwire
  rebind := ids?_rebind f
  none b h := by
    cases b with
    | mapping m => exact absurd rfl h
    | _ => rfl

end Body

namespace Graph

variable {g g' g₁ g₁' : Graph} {contents contents' : List (Path × Body)} {μ : Path → Path}

/-- The handle that the element at a handle has in another graph, by its path there. -/
def counterpart (μ : Path → Path) (g g' : Graph) (h : Handle) : Handle :=
  ((g.element? h).bind fun e => g'.lookup (μ e.path)).getD h

theorem size_le {α : Type} {f φ : Element → α}
    (hf : ∀ h k e d, g.element? h = some e → g.element? k = some d → f e = f d → h = k)
    (hp : ∀ h e, g.element? h = some e → ∃ h' e', g'.element? h' = some e' ∧ φ e' = f e) :
    g.elements.size ≤ g'.elements.size := by
  have hnodup : (g.elements.toList.map f).Nodup := by
    rw [List.nodup_iff_pairwise_ne, List.pairwise_map, List.pairwise_iff_getElem]
    intro i j hi hj hlt he
    have hget : ∀ {i : Nat} (hi : i < g.elements.toList.length),
        g.element? ⟨i⟩ = some g.elements.toList[i] := by
      intro i hi
      rw [Graph.element?, ← Array.getElem?_toList, List.getElem?_eq_getElem hi]
    exact absurd (Handle.mk.inj (hf _ _ _ _ (hget hi) (hget hj) he)) (Nat.ne_of_lt hlt)
  have hsubset : g.elements.toList.map f ⊆ g'.elements.toList.map φ := by
    intro x hm
    obtain ⟨e, he, rfl⟩ := List.mem_map.mp hm
    obtain ⟨i, hi⟩ := List.mem_iff_getElem?.mp he
    rw [Array.getElem?_toList] at hi
    obtain ⟨h', e', he', hx⟩ := hp ⟨i⟩ e hi
    rw [Graph.element?, ← Array.getElem?_toList] at he'
    exact List.mem_map.mpr ⟨e', List.mem_of_getElem? he', hx⟩
  have hle := hnodup.length_le_of_subset hsubset
  simpa using hle

theorem element?_eq_none_iff {h : Handle} :
    g.element? h = none ↔ g.elements.size ≤ h.slot := by
  rw [Graph.element?, Array.getElem?_eq_none_iff]

theorem Keeps.size_le {α : Type} {π : Element → α} (k : Keeps π g g') :
    g'.elements.size ≤ g.elements.size := by
  have hnone : g.element? ⟨g.elements.size⟩ = none := element?_eq_none_iff.mpr (Nat.le_refl _)
  have hp := k.element ⟨g.elements.size⟩
  rw [hnone, Option.map_none, Option.map_eq_none_iff] at hp
  exact element?_eq_none_iff.mp hp

theorem Keeps.size_eq {α : Type} {π : Element → α} (k : Keeps π g g') :
    g'.elements.size = g.elements.size :=
  Nat.le_antisymm k.size_le k.symm.size_le

section Counterparts

variable (s : Stocked contents g) (s' : Stocked contents' g') (t : Relocates μ contents contents')
include s s' t

theorem liveAt_counterpart {h : Handle} {e : Element} (he : g.element? h = some e) :
    ∃ e', g'.LiveAt (g.counterpart μ g' h) e' ∧ e'.path = μ e.path ∧
      e.body.Moved μ e'.body := by
  have hl : g.LiveAt h e := ⟨he, s.allAlive h e he⟩
  obtain ⟨b', hb', hm⟩ := t.stock (s.gained h e hl)
  obtain ⟨h', e', hl', hp, rfl⟩ := s'.kept _ _ hb'
  have hc : g.counterpart μ g' h = h' := by
    rw [counterpart, he, Option.bind_some, ← hp, s'.wellFormed.lookup_path hl']
    rfl
  exact ⟨e', hc ▸ hl', hp, hm.of_hull⟩

theorem exists_counterpart {h' : Handle} {e' : Element} (he' : g'.element? h' = some e') :
    ∃ h e, g.element? h = some e ∧ μ e.path = e'.path ∧ g.counterpart μ g' h = h' := by
  have hl' : g'.LiveAt h' e' := ⟨he', s'.allAlive h' e' he'⟩
  obtain ⟨p, b, hb, hp, -⟩ := t.stock_back (s'.gained h' e' hl')
  obtain ⟨h, e, hl, rfl, -⟩ := s.kept _ _ hb
  obtain ⟨e'', hl'', hp', -⟩ := liveAt_counterpart s s' t hl.1
  exact ⟨h, e, hl.1, hp, s'.wellFormed.handle_eq hl'' hl' (hp'.trans hp)⟩

omit s' in
theorem handle_eq_of_moved {h k : Handle} {e d : Element} (he : g.element? h = some e)
    (hd : g.element? k = some d) (hp : μ e.path = μ d.path) : h = k := by
  have hl : g.LiveAt h e := ⟨he, s.allAlive h e he⟩
  have hk : g.LiveAt k d := ⟨hd, s.allAlive k d hd⟩
  exact s.wellFormed.handle_eq hl hk
    (t.carries.injective _ _ _ _ (s.gained h e hl) (s.gained k d hk) hp)

theorem size_eq : g'.elements.size = g.elements.size := by
  apply Nat.le_antisymm
  · refine size_le (f := Element.path) (φ := fun e => μ e.path) ?_ ?_
    · intro h k e d he hd hp
      exact s'.wellFormed.handle_eq ⟨he, s'.allAlive h e he⟩ ⟨hd, s'.allAlive k d hd⟩ hp
    · intro h' e' he'
      obtain ⟨h, e, he, hp, -⟩ := exists_counterpart s s' t he'
      exact ⟨h, e, he, hp⟩
  · refine size_le (f := fun e => μ e.path) (φ := Element.path) ?_ ?_
    · exact fun _ _ _ _ he hd hp => handle_eq_of_moved s t he hd hp
    · intro h e he
      obtain ⟨e', hl', hp, -⟩ := liveAt_counterpart s s' t he
      exact ⟨_, e', hl'.1, hp⟩

theorem counterpart_none {h : Handle} (he : g.element? h = none) :
    g.counterpart μ g' h = h ∧ g'.element? h = none := by
  constructor
  · rw [counterpart, he]
    rfl
  · rw [element?_eq_none_iff, size_eq s s' t]
    exact element?_eq_none_iff.mp he

theorem counterpart_injective (h k : Handle)
    (heq : g.counterpart μ g' h = g.counterpart μ g' k) : h = k := by
  have hdiffer : ∀ {h k e}, g.element? h = some e → g.element? k = none →
      g.counterpart μ g' h ≠ g.counterpart μ g' k := by
    intro h k e he hk heq
    obtain ⟨e', hl', -⟩ := liveAt_counterpart s s' t he
    obtain ⟨hc, hnone⟩ := counterpart_none s s' t hk
    rw [heq, hc, LiveAt, hnone] at hl'
    cases hl'.1
  cases he : g.element? h with
  | none =>
    cases hd : g.element? k with
    | none => rwa [(counterpart_none s s' t he).1, (counterpart_none s s' t hd).1] at heq
    | some d => exact absurd heq.symm (hdiffer hd he)
  | some e =>
    cases hd : g.element? k with
    | none => exact absurd heq (hdiffer he hd)
    | some d =>
      obtain ⟨e', hl', hp, -⟩ := liveAt_counterpart s s' t he
      obtain ⟨d', hl'', hq, -⟩ := liveAt_counterpart s s' t hd
      rw [heq] at hl'
      rw [hl'.unique hl''] at hp
      exact handle_eq_of_moved s t he hd (hp.symm.trans hq)

theorem counterpart_surjective (h' : Handle) : ∃ h, g.counterpart μ g' h = h' := by
  cases he' : g'.element? h' with
  | some e' =>
    obtain ⟨h, _, _, _, hc⟩ := exists_counterpart s s' t he'
    exact ⟨h, hc⟩
  | none =>
    have hnone : g.element? h' = none := by
      rw [element?_eq_none_iff, ← size_eq s s' t]
      exact element?_eq_none_iff.mp he'
    exact ⟨h', (counterpart_none s s' t hnone).1⟩

end Counterparts

theorem WellFormed.eq_of_pathOf (w : g.WellFormed) {hs ks : List Handle}
    (hh : ∀ h ∈ hs, ∃ e, g.LiveAt h e) (hk : ∀ k ∈ ks, ∃ e, g.LiveAt k e)
    (hp : hs.map g.pathOf = ks.map g.pathOf) : hs = ks := by
  have hlookup : ∀ {hs : List Handle}, (∀ h ∈ hs, ∃ e, g.LiveAt h e) →
      (hs.map g.pathOf).map g.lookup = hs.map some := by
    intro hs hlive
    rw [List.map_map]
    refine List.map_congr_left fun h hm => ?_
    obtain ⟨e, hl⟩ := hlive h hm
    rw [Function.comp_apply, hl.pathOf, w.lookup_path hl]
  have heq := congrArg (List.map g.lookup) hp
  rw [hlookup hh, hlookup hk] at heq
  exact (List.map_inj_right fun _ _ => Option.some.inj).mp heq

namespace Finished

theorem rostered (f : Finished contents g₁ g) : g.Rostered :=
  ((keeps_resolveAll g₁).trans f.keeps.post).rostered f.stocked.rostered

theorem element? (f : Finished contents g₁ g) {h : Handle} {e₁ : Element}
    (he : g₁.element? h = some e₁) : ∃ e, g.LiveAt h e ∧
      e.body.unwire = (e₁.body.rebind g₁.bind).unwire := by
  have hl₁ : g₁.LiveAt h e₁ := ⟨he, f.stocked.allAlive h e₁ he⟩
  obtain ⟨e, hl, -⟩ := f.keeps_place.liveAt hl₁
  exact ⟨e, hl, f.unwire_body_eq hl hl₁⟩

theorem element?_none (f : Finished contents g₁ g) {h : Handle} (he : g₁.element? h = none) :
    g.element? h = none := by
  have hp := f.keeps_place.element h
  rwa [he, Option.map_none, Option.map_eq_none_iff] at hp

theorem liveAt (f : Finished contents g₁ g) {h : Handle} {b : Body} (hb : g.body? h = some b) :
    ∃ e, g.LiveAt h e ∧ e.body = b := by
  obtain ⟨e, he, rfl⟩ := Option.map_eq_some_iff.mp hb
  cases he₁ : g₁.element? h with
  | none =>
    rw [f.element?_none he₁] at he
    cases he
  | some e₁ =>
    obtain ⟨e', hl', -⟩ := f.element? he₁
    obtain rfl := Option.some.inj (hl'.1.symm.trans he)
    exact ⟨e', hl', rfl⟩

section Finished

variable (f : Finished contents g₁ g) (f' : Finished contents' g₁' g')
  (t : Relocates μ contents contents')
include f f' t

theorem liveAt_image {h : Handle} {e : Element} (hl : g.LiveAt h e) :
    ∃ e', g'.LiveAt (g₁.counterpart μ g₁' h) e' ∧ e'.path = μ e.path := by
  obtain ⟨e₁, hl₁, hpath, -⟩ := f.gained hl
  obtain ⟨e₁', hl₁', hp, -⟩ := liveAt_counterpart f.stocked f'.stocked t hl₁.1
  obtain ⟨e', hl', -⟩ := f'.element? hl₁'.1
  exact ⟨e', hl', (f'.path_eq hl' hl₁').trans (hp.trans (congrArg μ hpath))⟩

theorem agree {h h' : Handle} {e e' : Element} (hl : g₁.LiveAt h e) (hl' : g₁'.LiveAt h' e')
    (ho : e'.body.outline = e.body.outline.rebind (repath (.along μ))) :
    Rebinding.Agree (g₁'.bind.after (repath (.along μ)))
      ((carry μ (g₁.counterpart μ g₁')).after g₁.bind) e.body.outline.links := by
  intro l hm
  have hm' : (repath (.along μ)).onLink l ∈ e'.body.outline.links := by
    rw [ho, Body.links_rebind]
    exact List.mem_map_of_mem hm
  obtain ⟨x, hx⟩ := f.resolves hl l (Body.links_outline_subset _ hm)
  obtain ⟨x', hx'⟩ := f'.resolves hl' _ (Body.links_outline_subset _ hm')
  obtain ⟨d, hd, hp, -⟩ := (resolve_eq_ok f.stocked.wellFormed).mp hx
  obtain ⟨d', hd', hp', -⟩ := (resolve_eq_ok f'.stocked.wellFormed).mp hx'
  obtain ⟨y, hy, hq, -⟩ := liveAt_counterpart f.stocked f'.stocked t hd.1
  have heq : x' = g₁.counterpart μ g₁' x :=
    f'.stocked.wellFormed.handle_eq hd' hy (hp'.trans ((congrArg μ hp).symm.trans hq.symm))
  have hbind : g₁.bind l.family ⟨l.path, l.target⟩ = .bound l.path x := bind_link hx
  have hbind' : g₁'.bind l.family ⟨μ l.path, l.target⟩ = .bound (μ l.path) x' := bind_link hx'
  have hrepath : repath (.along μ) l.family ⟨l.path, l.target⟩ = ⟨μ l.path, l.target⟩ := rfl
  simp only [Rebinding.onLink, Rebinding.after, hrepath, hbind, hbind', carry, heq]
  rfl

theorem mirrors_relocated : Mirrors μ (g₁.counterpart μ g₁') g g' := by
  have s := f.stocked
  have s' := f'.stocked
  constructor
  case injective => exact counterpart_injective s s' t
  case surjective => exact counterpart_surjective s s' t
  case size =>
    rw [f'.keeps_place.size_eq, f.keeps_place.size_eq]
    exact size_eq s s' t
  case element =>
    intro h
    cases he₁ : g₁.element? h with
    | none =>
      obtain ⟨hc, hnone⟩ := counterpart_none s s' t he₁
      rw [hc, f.element?_none he₁, f'.element?_none hnone]
      rfl
    | some e₁ =>
      obtain ⟨e₁', hl₁', -, hm⟩ := liveAt_counterpart s s' t he₁
      obtain ⟨e, hl, hu⟩ := f.element? he₁
      obtain ⟨e', hl', hu'⟩ := f'.element? hl₁'.1
      have hagree := f.agree f' t ⟨he₁, s.allAlive h e₁ he₁⟩ hl₁' hm.outline
      have hbody : e'.body.outline = (e.body.rebind (carry μ (g₁.counterpart μ g₁'))).outline := by
        rw [Body.outline_of_unwire hu', Body.outline_rebind, hm.outline, Body.outline_rebind,
          Body.outline_of_unwire hu, Body.outline_rebind, Body.rebind_rebind, Body.rebind_rebind]
        exact Body.rebind_eq_iff.mpr hagree
      rw [hl.1, hl'.1]
      exact congrArg some (Prod.ext (hl'.2.trans hl.2.symm) hbody)

/-- The elements of a kind came in the order in which their counterparts came if the contents of this
kind are in the same order. -/
theorem handles_counterpart {k : Kind} (hk : k ≠ .package ∧ k ≠ .primitiveType)
    (ho : contentPaths contents' k = (contentPaths contents k).map μ) :
    g'.handles k = (g.handles k).map (g₁.counterpart μ g₁') := by
  have s := f.stocked
  have s' := f'.stocked
  have hhandles : g.handles k = g₁.handles k := by rw [handles, handles, f.keeps_place.roster]
  have hhandles' : g'.handles k = g₁'.handles k := by rw [handles, handles, f'.keeps_place.roster]
  rw [hhandles, hhandles']
  refine s'.wellFormed.eq_of_pathOf ?_ ?_ ?_
  · intro h' hm
    obtain ⟨e', hl', -⟩ := (mem_handles s'.rostered).mp hm
    exact ⟨e', hl'⟩
  · intro h' hm
    obtain ⟨h, hh, rfl⟩ := List.mem_map.mp hm
    obtain ⟨e, hl, -⟩ := (mem_handles s.rostered).mp hh
    obtain ⟨e', hl', -⟩ := liveAt_counterpart s s' t hl.1
    exact ⟨e', hl'⟩
  · change g₁'.pathsOfKind k = _
    rw [s'.order k hk.1 hk.2, ho, ← s.order k hk.1 hk.2, pathsOfKind, List.map_map, List.map_map]
    refine List.map_congr_left fun h hm => ?_
    obtain ⟨e, hl, -⟩ := (mem_handles s.rostered).mp hm
    obtain ⟨e', hl', hp, -⟩ := liveAt_counterpart s s' t hl.1
    rw [Function.comp_apply, Function.comp_apply, hl.pathOf, hl'.pathOf, hp]

theorem view_relocated {α : Type} {V V' : Body → Option α} (v : Body.Steady g₁.bind V)
    (v' : Body.Steady g₁'.bind V')
    (hi : ∀ p b b', (p, b) ∈ contents → (μ p, b') ∈ contents' → V' b' = V b) (h : Handle) :
    ((g'.element? (g₁.counterpart μ g₁' h)).bind fun e => V' e.body) =
      (g.element? h).bind fun e => V e.body := by
  cases he₁ : g₁.element? h with
  | none =>
    obtain ⟨hc, hnone⟩ := counterpart_none f.stocked f'.stocked t he₁
    rw [hc, f.element?_none he₁, f'.element?_none hnone]
    rfl
  | some e₁ =>
    have hl₁ : g₁.LiveAt h e₁ := ⟨he₁, f.stocked.allAlive h e₁ he₁⟩
    obtain ⟨e₁', hl₁', hp, hm⟩ := liveAt_counterpart f.stocked f'.stocked t he₁
    obtain ⟨e, hl, hu⟩ := f.element? he₁
    obtain ⟨e', hl', hu'⟩ := f'.element? hl₁'.1
    have hkind := hm.kind
    have hbodies : V' e₁'.body = V e₁.body := by
      by_cases hk : e₁.body.kind = .mapping
      · have hcontent : ∀ {e : Element}, e.body.kind = .mapping → e.body.hull.IsContent := by
          intro e hk
          constructor <;> rw [Body.kind_hull, hk] <;> exact Kind.noConfusion
        have hc := (f.stocked.gained h e₁ hl₁).mem (hcontent hk)
        have hc' := (f'.stocked.gained _ e₁' hl₁').mem (hcontent (hkind.trans hk))
        rw [← v'.hull, hi _ _ _ hc (hp ▸ hc'), v.hull]
      · rw [v.none _ hk, v'.none _ fun hk' => hk (hkind.symm.trans hk')]
    rw [hl.1, hl'.1, Option.bind_some, Option.bind_some, ← v'.unwire, hu', ← v.unwire e.body, hu,
      v'.unwire, v.unwire, v'.rebind, v.rebind, hbodies]

theorem copies_relocated (hi : ∀ p b b', (p, b) ∈ contents → (μ p, b') ∈ contents' →
    b'.ids? = b.ids?) : Copies μ (g₁.counterpart μ g₁') g g' where
  toMirrors := f.mirrors_relocated f' t
  ids := by
    intro h
    have hids : ∀ {g : Graph} {h : Handle}, (g.mapping? h).map Mapping.ids =
        (g.element? h).bind fun e => e.body.ids? := by
      intro g h
      rw [mapping?_eq, body?, Option.map_bind, Option.bind_map]
      rfl
    rw [hids, hids]
    exact f.view_relocated f' t (Body.steady_ids? _) (Body.steady_ids? _) hi h

end Finished

theorem mirrors (f : Finished contents g₁ g) (f' : Finished contents' g₁' g')
    (hs : Standardizes contents contents') : Copies id (g₁.counterpart id g₁') g g' := by
  refine f.copies_relocated f' (hs.relocates f.stocked) ?_
  intro p b b' hb hb'
  obtain ⟨x, hx, rfl⟩ := (hs p b').mp hb'
  rw [f.stocked.unique (.content hb) (.content hx), Body.ids?_standard]

end Finished

section Prepared

variable {r : Registry} {m : Model} {entries : List Entry} (p : Prepared r m entries contents g₁)
include p

theorem Prepared.registry_eq : g₁.registry = r := by
  obtain ⟨_, -, -, hregistry⟩ := (stocked_new r).register (congrArg Prod.snd p.registered)
  rw [p.registered, registry_new] at hregistry
  exact hregistry

theorem Prepared.isContent : ∀ c ∈ contents, c.2.IsContent := by
  intro c hc
  obtain ⟨e, _, hcontent⟩ := (mem_of_mapM_ok p.contents_eq).mp hc
  exact Entry.isContent_body (Entry.content_eq_ok.mp hcontent).1

theorem Prepared.bound : Finished contents g₁ g₁.resolveAll.1 :=
  ⟨p.stocked, p.resolved, .refl _⟩

theorem Prepared.wired : Finished contents g₁ g₁.resolveAll.1.wireAll.1 :=
  ⟨p.stocked, p.resolved, keeps_wireAll _⟩

end Prepared

end Graph
end ModelGraph
