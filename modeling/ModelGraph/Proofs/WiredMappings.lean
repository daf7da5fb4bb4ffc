import Mathlib.Logic.Relation
import ModelGraph.Proofs.BoundReferences
import ModelGraph.Proofs.BoundedBodies
import ModelGraph.Proofs.FreshMappings
import ModelGraph.Proofs.Inclusions
import ModelGraph.Proofs.WiredLookups

namespace ModelGraph

namespace SetImplementation

variable (s : SetImplementation)

theorem IsUnwired.rebind {s : SetImplementation} (h : s.IsUnwired) (f : Rebinding) :
    (s.rebind f).IsUnwired := by
  constructor
  · rw [s.properties_rebind]
    intro p hp
    obtain ⟨q, hq, rfl⟩ := List.mem_map.mp hp
    exact h.1 q hq
  · rw [s.parameters_rebind]
    exact h.2

theorem properties_mapped (f : PropertyMapping → PropertyMapping)
    (k : OperationParameter → OperationParameter) :
    ((s.mapParameters k).mapProperties f).properties = s.properties.map f := by
  cases hk : s.kind <;> simp [properties, mapProperties, mapParameters, hk]

theorem parameters_mapped (f : PropertyMapping → PropertyMapping)
    (k : OperationParameter → OperationParameter) :
    ((s.mapParameters k).mapProperties f).parameters = s.parameters.map k := by
  cases hk : s.kind <;> simp [parameters, mapProperties, mapParameters, hk]

theorem mapped_mapped {f : PropertyMapping → PropertyMapping}
    {k : OperationParameter → OperationParameter} (hf : ∀ p, f (f p) = f p)
    (hk : ∀ p, k (k p) = k p) :
    (((s.mapParameters k).mapProperties f).mapParameters k).mapProperties f =
      (s.mapParameters k).mapProperties f := by
  cases hs : s.kind <;>
    simp [mapProperties, mapParameters, hs, Function.comp_def, hf, hk]

end SetImplementation

namespace Graph

variable {g g' : Graph} {h : Handle}

def producer? (g : Graph) (h : Handle) (p : PropertyMapping) : Option SetHandle :=
  (g.producer h p).toOption.join

def named? (g : Graph) (h : Handle) (p : OperationParameter) : Option SetHandle :=
  (g.classMappingById h p.id).toOption

theorem wireProperty_eq (p : PropertyMapping) :
    g.wireProperty h p = { p with producer := (g.producer? h p).or p.producer } := by
  rw [wireProperty, producer?]
  cases g.producer h p with
  | error fault => rfl
  | ok o => cases o <;> rfl

theorem wireParameter_eq (p : OperationParameter) :
    g.wireParameter h p = { p with producer := (g.named? h p).or p.producer } := by
  rw [wireParameter, named?]
  cases g.classMappingById h p.id <;> rfl

theorem wireProperty_wireProperty (p : PropertyMapping) :
    g.wireProperty h (g.wireProperty h p) = g.wireProperty h p := by
  have hfound : ∀ o, g.producer? h { p with producer := o } = g.producer? h p := fun _ => rfl
  simp [wireProperty_eq, hfound, ← Option.or_assoc]

theorem wireParameter_wireParameter (p : OperationParameter) :
    g.wireParameter h (g.wireParameter h p) = g.wireParameter h p := by
  have hfound : ∀ o, g.named? h { p with producer := o } = g.named? h p := fun _ => rfl
  simp [wireParameter_eq, hfound, ← Option.or_assoc]

theorem wireBody_wireBody (b : Body) : g.wireBody h (g.wireBody h b) = g.wireBody h b := by
  cases b with
  | mapping m =>
    simp only [wireBody, List.map_map, Body.mapping.injEq, Mapping.mk.injEq, true_and, and_true]
    refine List.map_congr_left fun s _ => ?_
    exact s.mapped_mapped wireProperty_wireProperty wireParameter_wireParameter
  | _ => rfl

theorem body?_wire (g : Graph) (h k : Handle) :
    (g.wire k).1.body? h = if h = k then (g.body? h).map (g.wireBody h) else g.body? h := by
  rw [wire, body?, body?, element?_update]
  split
  next hk =>
    rw [hk]
    cases g.element? k <;> rfl
  · rfl

theorem body?_foldl_wire (ks : List Handle) (keeps : Keeps Element.unwired g g') :
    (ks.foldl (fun g k => (g.wire k).1) g').body? h =
      if h ∈ ks then (g'.body? h).map (g.wireBody h) else g'.body? h := by
  induction ks generalizing g' with
  | nil => rfl
  | cons k ks ih =>
    rw [List.foldl_cons, ih (keeps.trans (keeps_wire k g')), body?_wire, keeps.wireBody_eq]
    by_cases hk : h = k
    · have htwice : g.wireBody h ∘ g.wireBody h = g.wireBody h := funext wireBody_wireBody
      simp [hk, Option.map_map, hk ▸ htwice]
    · simp [hk]

theorem mapping?_wireAll (ro : g.Rostered) {e : Element} {m : Mapping} (hl : g.LiveAt h e)
    (hm : e.body = .mapping m) :
    g.wireAll.1.mapping? h = some { m with slots := m.slots.map (g.wireSlot h) } := by
  have hmem : h ∈ (g.ofKind .mapping).map (·.1) :=
    List.mem_map.mpr ⟨(h, e), (mem_ofKind ro).mpr ⟨hl, congrArg Body.kind hm⟩, rfl⟩
  have hbody : g.body? h = some (.mapping m) := by rw [body?, hl.1, Option.map_some, hm]
  rw [mapping?, wireAll]
  simp only [body?_foldl_wire _ (Keeps.refl g), if_pos hmem, hbody, Option.map_some, wireBody]

/-- A mapping includes another one, directly or by others. -/
def IncludesAll (g : Graph) : Handle → Handle → Prop :=
  Relation.ReflTransGen fun h k => k ∈ g.includes h

/-- A handle is one of a set implementation that a mapping or one that it includes has. -/
def Owns (g : Graph) (h : Handle) (t : SetHandle) : Prop :=
  g.IncludesAll h t.mapping ∧ ∃ s, g.setImplementation? t = some s

def Yields (g : Graph) (x : Property) (c : Handle) : Prop :=
  x.type.target = some c ∧ ∃ b, g.body? c = some (.class b)

def IsRoot (g : Graph) (t : SetHandle) : Prop :=
  ∃ s, g.setImplementation? t = some s ∧ s.root = true

/-- The first root of a list, or the first of all where there is no root. -/
inductive IsDefault (g : Graph) : List SetHandle → SetHandle → Prop where
  | root {before after : List SetHandle} {t : SetHandle} (ht : g.IsRoot t)
    (first : ∀ u ∈ before, ¬g.IsRoot u) : IsDefault g (before ++ t :: after) t
  | first {after : List SetHandle} {t : SetHandle} (rootless : ∀ u ∈ t :: after, ¬g.IsRoot u) :
    IsDefault g (t :: after) t

/-- A property mapping of a mapping is bound to the set implementation that is embedded in it, or as
its property asks for: to the class mapping that it names, or to the default one of the class that
the property yields. Where there is no such class mapping or no such class it is unbound. -/
inductive Wired (g : Graph) (h : Handle) (p : PropertyMapping) : Prop where
  | embedded {index : Nat} (he : p.embedded? = some index) (hp : p.producer = some ⟨h, index⟩)
  | named {owner c : Handle} {x : Property} {id : String} {t : SetHandle}
    (he : p.embedded? = none) (ho : p.owner.target = some owner)
    (hx : g.findProperty owner p.property = .ok x) (hc : g.Yields x c) (hid : p.target = some id)
    (hne : id ≠ "") (ht : g.classMappingById h id = .ok t) (hp : p.producer = some t)
  | default {owner c : Handle} {x : Property} {t : SetHandle}
    (he : p.embedded? = none) (ho : p.owner.target = some owner)
    (hx : g.findProperty owner p.property = .ok x) (hc : g.Yields x c)
    (hid : p.target = none ∨ p.target = some "")
    (ht : g.IsDefault (g.classMappingsByClass h c) t) (hp : p.producer = some t)
  | unmapped {owner c : Handle} {x : Property}
    (he : p.embedded? = none) (ho : p.owner.target = some owner)
    (hx : g.findProperty owner p.property = .ok x) (hc : g.Yields x c)
    (hid : p.target = none ∨ p.target = some "")
    (ht : g.classMappingsByClass h c = []) (hp : p.producer = none)
  | plain {owner : Handle} {x : Property}
    (he : p.embedded? = none) (ho : p.owner.target = some owner)
    (hx : g.findProperty owner p.property = .ok x) (hc : ∀ c, ¬g.Yields x c)
    (hp : p.producer = none)

theorem any_root {t : SetHandle} : (g.setImplementation? t).any (·.root) = true ↔ g.IsRoot t := by
  rw [IsRoot, Option.any_eq_true]

theorem isDefault_of_defaultClassMapping {c : Handle} {t : SetHandle}
    (ht : g.defaultClassMapping h c = some t) : g.IsDefault (g.classMappingsByClass h c) t := by
  rw [defaultClassMapping] at ht
  cases hf : (g.classMappingsByClass h c).find? fun s => (g.setImplementation? s).any (·.root) with
  | some u =>
    simp only [hf, Option.some_or, Option.some.injEq] at ht
    subst ht
    obtain ⟨hroot, before, after, he, hb⟩ := List.find?_eq_some_iff_append.mp hf
    rw [he]
    refine .root (any_root.mp hroot) fun v hv hr => ?_
    have hnot := hb v hv
    rw [any_root.mpr hr] at hnot
    cases hnot
  | none =>
    simp only [hf, Option.none_or] at ht
    obtain ⟨after, he⟩ := List.head?_eq_some_iff.mp ht
    rw [he] at hf ⊢
    exact .first fun v hv hr => List.find?_eq_none.mp hf v hv (any_root.mpr hr)

theorem classMappingsByClass_of_none {c : Handle} (ht : g.defaultClassMapping h c = none) :
    g.classMappingsByClass h c = [] := by
  rw [defaultClassMapping] at ht
  exact List.head?_eq_none_iff.mp (Option.or_eq_none_iff.mp ht).2

theorem classOf?_eq_some {x : Property} {c : Handle} : g.classOf? x = some c ↔ g.Yields x c := by
  rw [classOf?, Yields, Option.filter_eq_some_iff, Option.any_eq_true]
  refine and_congr_right fun _ => ⟨?_, ?_⟩
  · rintro ⟨b, hb, ha⟩
    cases b with
    | «class» k => exact ⟨k, hb⟩
    | _ => cases ha
  · rintro ⟨k, hk⟩
    exact ⟨_, hk, rfl⟩

theorem wired_of_producer {p : PropertyMapping} {owner : Handle} (ho : p.owner.target = some owner)
    (hp : g.producer h p = .ok p.producer) : g.Wired h p := by
  rw [producer] at hp
  cases he : p.embedded? with
  | some index =>
    simp only [he] at hp
    exact .embedded he (Except.ok.inj hp).symm
  | none =>
    simp only [he, ho] at hp
    obtain ⟨x, hx, hp⟩ := bind_eq_ok.mp hp
    cases hc : g.classOf? x with
    | none =>
      simp only [hc] at hp
      refine .plain he ho hx (fun c hy => ?_) (pure_eq_ok.mp hp).symm
      rw [classOf?_eq_some.mpr hy] at hc
      cases hc
    | some c =>
      have hy := classOf?_eq_some.mp hc
      cases ht : p.target.filter fun id => !id.isEmpty with
      | some id =>
        simp only [hc, ht] at hp
        obtain ⟨t, hfound, hp⟩ := bind_eq_ok.mp hp
        obtain ⟨hid, hne⟩ := Option.filter_eq_some_iff.mp ht
        refine .named he ho hx hy hid ?_ hfound (pure_eq_ok.mp hp).symm
        rintro rfl
        cases hne
      | none =>
        simp only [hc, ht] at hp
        have hid : p.target = none ∨ p.target = some "" := by
          cases hp : p.target with
          | none => exact .inl rfl
          | some id =>
            rw [hp, Option.filter_some] at ht
            refine .inr (congrArg some ?_)
            simpa using ht
        have hp := pure_eq_ok.mp hp
        cases hd : g.defaultClassMapping h c with
        | some t =>
          exact .default he ho hx hy hid (isDefault_of_defaultClassMapping hd) (hp ▸ hd)
        | none => exact .unmapped he ho hx hy hid (classMappingsByClass_of_none hd) (hp ▸ hd)

theorem includesAll_of_mem_sources {k : Handle} (hk : k ∈ g.sources h) : g.IncludesAll h k :=
  (mem_sources.mp hk).lift id fun _ _ hn => (List.mem_filter.mp hn).1

theorem owns_of_classMappingById {id : String} {t : SetHandle}
    (ht : g.classMappingById h id = .ok t) : g.Owns h t := by
  rw [classMappingById] at ht
  split at ht
  next s hs =>
    cases ht
    obtain ⟨k, hk, hmem⟩ := List.mem_flatMap.mp (List.mem_of_find?_eq_some hs)
    rw [namedClassMappings_eq] at hmem
    obtain ⟨m, -, rfl, -⟩ := mem_handlesOf.mp hmem
    have hid := List.find?_some hs
    obtain ⟨slot, hslot, -⟩ := (Option.any_eq_true _ _).mp hid
    exact ⟨includesAll_of_mem_sources hk, slot, hslot⟩
  · cases ht

theorem foldl_new_subset (found more : List SetHandle) :
    more.foldl (fun found s => if found.contains s then found else found ++ [s]) found ⊆
      found ++ more := by
  refine List.foldlRecOn (motive := fun seen => seen ⊆ found ++ more) _ _
    (List.subset_append_left found more) fun seen hs s hmem => ?_
  split
  · exact hs
  · refine List.append_subset.mpr ⟨hs, fun t ht => List.mem_append_right _ ?_⟩
    exact List.mem_singleton.mp ht ▸ hmem

theorem owns_of_classMappingsByClass {c : Handle} {t : SetHandle}
    (ht : t ∈ g.classMappingsByClass h c) : g.Owns h t := by
  obtain ⟨hall, hmaps⟩ := List.mem_filter.mp ht
  obtain ⟨slot, hslot, -⟩ := (Option.any_eq_true _ _).mp hmaps
  have hall := foldl_new_subset [] _ hall
  obtain ⟨k, hk, hmem⟩ := List.mem_flatMap.mp hall
  rw [ownClassMappings_eq] at hmem
  obtain ⟨m, -, rfl, -⟩ := mem_handlesOf.mp hmem
  exact ⟨includesAll_of_mem_sources hk, slot, hslot⟩

theorem IsDefault.mem {ts : List SetHandle} {t : SetHandle} (ht : g.IsDefault ts t) : t ∈ ts := by
  cases ht with
  | root ht first => exact List.mem_append_right _ List.mem_cons_self
  | first rootless => exact List.mem_cons_self

theorem mapping_of_body {r : Registry} {e : Entry} {m : Mapping}
    (h : e.body r = .ok (.mapping m)) :
    Entry.mapping r e.entity.path e.entity.document = .ok m := by
  rw [Entry.body] at h
  cases hk : e.kind with
  | extension k =>
    rw [hk] at h
    obtain ⟨x, -, hx⟩ := Option.map_eq_some_iff.mp (Entry.require_eq_ok.mp h)
    cases hx
  | core c =>
    rw [hk] at h
    cases c with
    | mapping =>
      obtain ⟨m', hm, hx⟩ := map_eq_ok.mp h
      cases hx
      exact hm
    | _ =>
      obtain ⟨x, -, hx⟩ := Option.map_eq_some_iff.mp (Entry.require_eq_ok.mp h)
      cases hx

theorem mapping?_concluded (freeze : Bool) (g : Graph) (h : Handle) :
    (if freeze then g.freeze else g).mapping? h = g.mapping? h := by
  cases freeze with
  | false => rfl
  | true =>
    rw [if_pos rfl, mapping?, mapping?, body?, body?, element?_freeze, Option.map_map]
    rfl

variable {contents : List (Path × Body)} {g₁ : Graph} {r : Registry} {freeze : Bool}
  {model : Model} {entries : List Entry}

theorem Prepared.exists_read (p : Prepared r model entries contents g₁) {e : Element} {m : Mapping}
    (hl : g₁.LiveAt h e) (hm : e.body = .mapping m) : ∃ path j, Entry.mapping r path j = .ok m := by
  have hstock := p.stocked.gained h e hl
  rw [hm] at hstock
  have hmem : (e.path, .mapping m) ∈ contents := by
    change Stock contents e.path (.mapping m) at hstock
    generalize e.path = q at hstock
    cases hstock with
    | content hmem => exact hmem
  obtain ⟨entry, -, hcontent⟩ := (mem_of_mapM_ok p.contents_eq).mp hmem
  exact ⟨_, _, mapping_of_body (Entry.content_eq_ok.mp hcontent).1⟩

theorem Prepared.isUnwired (p : Prepared r model entries contents g₁) {e : Element} {m : Mapping}
    (hl : g₁.resolveAll.1.LiveAt h e) (hm : e.body = .mapping m) : ∀ s ∈ m.slots, s.IsUnwired := by
  obtain ⟨e₁, hl₁, rfl⟩ := (liveAt_resolveAll p.stocked.wellFormed).mp hl
  cases hb : e₁.body with
  | mapping m₁ =>
    rw [hb] at hm
    cases hm
    obtain ⟨path, j, hread⟩ := p.exists_read hl₁ hb
    have hunwired := (Entry.isFresh_of_mapping hread).unwired
    intro s hs
    obtain ⟨t, ht, rfl⟩ := List.mem_map.mp hs
    exact (hunwired t ht).rebind _
  | _ =>
    rw [hb] at hm
    cases hm

/-- A mapping of a built graph is the wired one of a mapping with nothing wired, and nothing was
wrong with the wiring. -/
theorem exists_unwired_of_build (hb : build r freeze model = .ok g) {e : Element} {m : Mapping}
    (hl : g.LiveAt h e) (hm : e.body = .mapping m) :
    ∃ m' : Mapping, (∀ s ∈ m'.slots, s.IsUnwired) ∧ m.slots = m'.slots.map (g.wireSlot h) ∧
      g.wireFaults h = [] := by
  obtain ⟨entries, contents, g₁, p⟩ := prepared_of_build hb
  rw [p.build_eq] at hb
  have keeps := keeps_of_conclude hb
  obtain ⟨hfaults, -, hg⟩ := conclude_eq_ok.mp hb
  obtain ⟨e', hl', -, hu⟩ := keeps.symm.liveAt_unwired hl
  rw [hm] at hu
  obtain ⟨m', hm', -⟩ := Body.exists_mapping_of_unwire hu
  have hwired := mapping?_wireAll p.bound.rostered hl' hm'
  rw [← mapping?_concluded freeze, ← hg, mapping?_of_live hl hm, Option.some.injEq] at hwired
  refine ⟨m', p.isUnwired hl' hm', ?_, ?_⟩
  · rw [hwired, keeps.wireSlot_eq]
  · rw [keeps.wireFaults_eq]
    exact ((allWiringFaults_eq_nil p.bound.rostered).mp hfaults h e' m' hl' hm').2

theorem owner_mem_links {m : Mapping} {s : SetImplementation} {p : PropertyMapping}
    (hs : s ∈ m.slots) (hp : p ∈ s.properties) : p.owner.link ∈ (Body.mapping m).links := by
  have hlinks : p.owner.link ∈ p.links := by
    rw [PropertyMapping.links]
    cases p.kind <;> simp
  refine List.mem_append_left _ (List.mem_append_right _ (List.mem_flatMap.mpr ⟨s, hs, ?_⟩))
  exact List.mem_cons_of_mem _
    (List.mem_append_right _ (List.mem_flatMap.mpr ⟨p, hp, hlinks⟩))

section Slots

variable (hb : build r freeze model = .ok g) {e : Element} {m : Mapping} (hl : g.LiveAt h e)
  (hm : e.body = .mapping m) {s : SetImplementation} (hs : s ∈ m.slots)
include hb hl hm hs

theorem parameter_of_build {p : OperationParameter} (hp : p ∈ s.parameters) :
    ∃ t, p.producer = some t ∧ g.classMappingById h p.id = .ok t := by
  obtain ⟨m', -, hslots, hfaults⟩ := exists_unwired_of_build hb hl hm
  obtain ⟨t, ht⟩ := (exists_of_wireFaults (mapping?_of_live hl hm) hfaults hs).1 p hp
  refine ⟨t, ?_, ht⟩
  rw [hslots] at hs
  obtain ⟨s', hs', rfl⟩ := List.mem_map.mp hs
  rw [wireSlot, SetImplementation.parameters_mapped] at hp
  obtain ⟨q, hq, rfl⟩ := List.mem_map.mp hp
  rw [wireParameter_eq] at ht ⊢
  change g.classMappingById h q.id = .ok t at ht
  simp [named?, ht, Except.toOption]

theorem producer_of_build {p : PropertyMapping} (hp : p ∈ s.properties) :
    g.producer h p = .ok p.producer := by
  obtain ⟨m', hu, hslots, hfaults⟩ := exists_unwired_of_build hb hl hm
  obtain ⟨o, ho⟩ := (exists_of_wireFaults (mapping?_of_live hl hm) hfaults hs).2 p hp
  rw [ho]
  rw [hslots] at hs
  obtain ⟨s', hs', rfl⟩ := List.mem_map.mp hs
  rw [wireSlot, SetImplementation.properties_mapped] at hp
  obtain ⟨q, hq, rfl⟩ := List.mem_map.mp hp
  rw [wireProperty_eq] at ho ⊢
  change g.producer h q = .ok o at ho
  simp [producer?, ho, Except.toOption, (hu s' hs').1 q hq]

theorem wired_property {p : PropertyMapping} (hp : p ∈ s.properties) : g.Wired h p := by
  obtain ⟨entries, contents, g₁, pr⟩ := prepared_of_build hb
  have hlink : p.owner.link ∈ e.body.links := by
    rw [hm]
    exact owner_mem_links hs hp
  obtain ⟨t, -, ht, -⟩ := (pr.finished hb).binds hl hlink
  exact wired_of_producer ht (producer_of_build hb hl hm hs hp)

theorem owns_of_build {p : PropertyMapping} (hp : p ∈ s.properties) {t : SetHandle}
    (ht : p.producer = some t) : g.Owns h t := by
  have hsame : ∀ {u}, p.producer = some u → u = t := fun hu =>
    Option.some.inj (hu.symm.trans ht)
  cases wired_property hb hl hm hs hp with
  | @embedded index he hu =>
    obtain rfl := hsame hu
    obtain ⟨entries, contents, g₁, pr⟩ := prepared_of_build hb
    have hbounded := pr.isBounded_live hb hl
    rw [hm] at hbounded
    obtain ⟨i, hi⟩ := List.mem_iff_getElem?.mp hs
    have hinner : index ∈ s.inner :=
      List.mem_append_left _ (List.mem_filterMap.mpr ⟨p, hp, he⟩)
    have hlt := (hbounded.1 hi).inner index hinner
    have hindex : index < m.slots.length :=
      Nat.lt_trans hlt (List.getElem?_eq_some_iff.mp hi).1
    refine ⟨.refl, m.slots[index], ?_⟩
    rw [setImplementation?, mapping?_of_live hl hm, Option.bind_some]
    exact List.getElem?_eq_getElem hindex
  | named he ho hx hc hid hne hfound hu =>
    exact hsame hu ▸ owns_of_classMappingById hfound
  | default he ho hx hc hid hdefault hu =>
    exact hsame hu ▸ owns_of_classMappingsByClass hdefault.mem
  | unmapped he ho hx hc hid hnone hu =>
    rw [hu] at ht
    cases ht
  | plain he ho hx hc hu =>
    rw [hu] at ht
    cases ht

/-- In a built graph the parameters and property mappings of every set implementation are bound as
they should be, and whatever they are bound to is there. -/
theorem wired_of_build :
    (∀ p ∈ s.parameters, ∃ t, p.producer = some t ∧ g.classMappingById h p.id = .ok t) ∧
      (∀ p ∈ s.properties, g.Wired h p) ∧
        ∀ t, ((∃ p ∈ s.parameters, p.producer = some t) ∨
          ∃ p ∈ s.properties, p.producer = some t) → g.Owns h t := by
  refine ⟨fun p => parameter_of_build hb hl hm hs, fun p => wired_property hb hl hm hs, ?_⟩
  rintro t (⟨p, hp, ht⟩ | ⟨p, hp, ht⟩)
  · obtain ⟨u, hu, hfound⟩ := parameter_of_build hb hl hm hs hp
    obtain rfl := Option.some.inj (hu.symm.trans ht)
    exact owns_of_classMappingById hfound
  · exact owns_of_build hb hl hm hs hp ht

end Slots

/-- A class of items, and a mapping that has two class mappings of it besides that of the party. -/
def itemModel : Model :=
  [partyEntity [("properties", .arr [.obj [("name", .str "item"), ("type", .str "Item"),
      ("multiplicity", .obj [("lowerBound", .ofNat 1), ("upperBound", .ofNat 1)])]])],
    { path := ⟨"Item"⟩
      classifier := "meta::pure::metamodel::type::Class"
      content := .obj [("_type", .str "class"), ("name", .str "Item")] },
    { path := ⟨"M"⟩
      classifier := "meta::pure::mapping::Mapping"
      content := .obj [("_type", .str "mapping"), ("name", .str "M"), ("classMappings", .arr [
        .obj [("_type", .str "pureInstance"), ("class", .str "Party"), ("id", .str "party"),
          ("propertyMappings", .arr [itemJson [], itemJson [("target", .str "spare")]])],
        .obj [("_type", .str "pureInstance"), ("class", .str "Item"), ("id", .str "spare")],
        .obj [("_type", .str "pureInstance"), ("class", .str "Item"), ("id", .str "item"),
          ("root", .bool true)]])] }]
where
  itemJson (members : List (String × Json)) : Json :=
    .obj ([("_type", .str "purePropertyMapping"), ("transform", .str "t"),
      ("property", .obj [("class", .str "Party"), ("property", .str "item")])] ++ members)

def itemSlot (root spare : Option SetHandle) : SetImplementation where
  id := .explicit "party"
  target := .bound ⟨"Party"⟩ ⟨12⟩
  kind := .pureInstance none none [
    { owner := .bound ⟨"Party"⟩ ⟨12⟩, property := "item", kind := .pure (.str "t") none
      producer := root },
    { owner := .bound ⟨"Party"⟩ ⟨12⟩, property := "item", kind := .pure (.str "t") none
      target := some "spare", producer := spare }]

def itemMapping (root spare : Option SetHandle) (top : List Nat) : Mapping where
  slots := [itemSlot root spare,
    { id := .explicit "spare", target := .bound ⟨"Item"⟩ ⟨13⟩, kind := .pureInstance none none [] },
    { id := .explicit "item", target := .bound ⟨"Item"⟩ ⟨13⟩, root := true
      kind := .pureInstance none none [] }]
  top := top

def itemGraph : Graph :=
  ((((new Preset.full).create ⟨"Party"⟩ (.class { properties := [
    { name := "item", multiplicity := .one, type := .bound ⟨"Item"⟩ ⟨13⟩ }] })).1.create
      ⟨"Item"⟩ (.class {})).1.create ⟨"M"⟩
        (.mapping (itemMapping (some ⟨⟨14⟩, 2⟩) (some ⟨⟨14⟩, 1⟩) [0, 1, 2]))).1

theorem build_item : build Preset.full false itemModel = .ok itemGraph := rfl

theorem live_item : itemGraph.LiveAt ⟨14⟩
    (.placed ⟨"M"⟩ (.mapping (itemMapping (some ⟨⟨14⟩, 2⟩) (some ⟨⟨14⟩, 1⟩) [0, 1, 2]))) :=
  ⟨rfl, rfl⟩

theorem wired_of_build_item :
    (∀ p ∈ (itemSlot (some ⟨⟨14⟩, 2⟩) (some ⟨⟨14⟩, 1⟩)).properties, itemGraph.Wired ⟨14⟩ p) ∧
      itemGraph.Owns ⟨14⟩ ⟨⟨14⟩, 2⟩ ∧ itemGraph.Owns ⟨14⟩ ⟨⟨14⟩, 1⟩ := by
  obtain ⟨-, hwired, howns⟩ := wired_of_build build_item live_item rfl
    (s := itemSlot (some ⟨⟨14⟩, 2⟩) (some ⟨⟨14⟩, 1⟩)) List.mem_cons_self
  refine ⟨hwired, howns _ (.inr ⟨_, List.mem_cons_self, rfl⟩), ?_⟩
  exact howns _ (.inr ⟨_, List.mem_cons_of_mem _ List.mem_cons_self, rfl⟩)

end Graph
end ModelGraph
