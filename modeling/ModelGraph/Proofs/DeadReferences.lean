import ModelGraph.Proofs.BoundReferences
import ModelGraph.Proofs.Sweeps

namespace ModelGraph

/-- The references within an entry. Those of a class mapping are in its slot, which an entry only
names. -/
def ListEntry.links : ListEntry → List Link
  | .superType r => [r.link]
  | .storeInclude r => [r.link]
  | .mappingInclude r => [r.link]
  | .runtimeMapping r => [r.link]
  | .connections g => g.links
  | .classMapping _ _ => []
  | .enumerationMapping m => m.links
  | .includedClass r => [r.link]
  | .fieldName n => [n.owner.link]

namespace Body

/-- The references within the set implementations of a mapping, those that no class mapping names
any more included. -/
def slotLinks : Body → List Link
  | .mapping m => m.slots.flatMap SetImplementation.links
  | _ => []

theorem flatMap_listed_runtime (r : Runtime) : r.listed.flatMap ListEntry.links = r.links := by
  simp [Runtime.links, Runtime.listed, List.flatMap_map, ListEntry.links, ← List.map_eq_flatMap]

theorem links_perm (b : Body) :
    b.links.Perm (b.listed.flatMap ListEntry.links ++ b.bare.links) := by
  cases b with
  | «class» c =>
    simp [links, Class.links, listed, bare, List.flatMap_map, ListEntry.links,
      ← List.map_eq_flatMap]
  | database d =>
    simp [links, Database.links, listed, bare, List.flatMap_map, ListEntry.links,
      ← List.map_eq_flatMap]
  | mapping m =>
    have hlisted : m.listed.flatMap ListEntry.links =
        m.includes.map Reference.link ++ m.enumerationMappings.flatMap EnumerationMapping.links := by
      simp [Mapping.listed, List.flatMap_map, ListEntry.links, ← List.map_eq_flatMap]
    have hbare : (mapping m).bare.links = m.slots.flatMap SetImplementation.links := by
      simp [bare, links, Mapping.links]
    change m.links.Perm (m.listed.flatMap ListEntry.links ++ (mapping m).bare.links)
    rw [hlisted, hbare, Mapping.links, List.append_assoc, List.append_assoc]
    exact List.perm_append_comm.append_left _
  | runtime r =>
    change r.links.Perm (r.listed.flatMap ListEntry.links ++ [])
    rw [flatMap_listed_runtime, List.append_nil]
  | service s =>
    obtain ⟨pattern, documentation, owners, autoActivateUpdates, execution, annotations⟩ := s
    cases execution with
    | none => exact .refl _
    | some e =>
      obtain ⟨query, mapping, runtime⟩ := e
      cases runtime with
      | pointer r => exact .refl _
      | embedded r =>
        change (mapping.link :: (r.links ++ annotations.links)).Perm
          (r.listed.flatMap ListEntry.links ++ mapping.link :: annotations.links)
        rw [flatMap_listed_runtime]
        exact List.perm_middle.symm
  | extension x =>
    cases x with
    | schema s =>
      have hlisted : (extension (.schema s)).listed.flatMap ListEntry.links =
          s.included.map Reference.link ++ s.fieldNames.map (·.owner.link) := by
        simp [listed, List.flatMap_map, ListEntry.links, ← List.map_eq_flatMap]
      have hlinks (s : SerializerSchema) : s.links =
          ((s.store.map Reference.link).toList ++ [s.root.link]) ++
            (s.included.map Reference.link ++ s.fieldNames.map (·.owner.link)) := by
        rw [SerializerSchema.links]
        cases s.store <;> simp
      have hbare : (extension (.schema s)).bare.links =
          (s.store.map Reference.link).toList ++ [s.root.link] :=
        (hlinks _).trans (List.append_nil _)
      change s.links.Perm _
      rw [hlisted, hbare, hlinks]
      exact List.perm_append_comm
    | _ => exact .refl _
  | _ => exact .refl _

theorem slotLinks_subset (b : Body) : b.slotLinks ⊆ b.bare.links := by
  cases b with
  | mapping m => simp [slotLinks, bare, links, Mapping.links]
  | _ => exact List.nil_subset _

/-- The references to dead elements stand in core entries that are dead themselves, and in slots. -/
structure DeadPlaced (isDead : Handle → Bool) (b : Body) : Prop where
  listed : ∀ x ∈ b.listed, x.goes false isDead = false → ∀ l ∈ x.links, l.target.any isDead = false
  bare : ∀ l ∈ b.bare.links, l.target.any isDead = true → l ∈ b.slotLinks

instance (isDead : Handle → Bool) (b : Body) : Decidable (b.DeadPlaced isDead) :=
  decidable_of_iff
    ((∀ x ∈ b.listed, x.goes false isDead = false → ∀ l ∈ x.links, l.target.any isDead = false) ∧
      ∀ l ∈ b.bare.links, l.target.any isDead = true → l ∈ b.slotLinks)
    ⟨fun h => ⟨h.1, h.2⟩, fun h => ⟨h.listed, h.bare⟩⟩

theorem DeadPlaced.mem_links_iff {isDead : Handle → Bool} {b b' : Body} (p : b.DeadPlaced isDead)
    (hb : b'.bare = b.bare) (hl : b'.listed = b.listed.filter fun x => !x.goes false isDead)
    {l : Link} : l ∈ b'.links ∧ l.target.any isDead = true ↔
      l ∈ b.slotLinks ∧ l.target.any isDead = true := by
  refine and_congr_left fun hd => ?_
  rw [b'.links_perm.mem_iff, List.mem_append, hb, hl]
  constructor
  · rintro (hm | hm)
    · obtain ⟨x, hx, hlx⟩ := List.mem_flatMap.mp hm
      obtain ⟨hx, hgoes⟩ := List.mem_filter.mp hx
      rw [p.listed x hx (by simpa using hgoes) l hlx] at hd
      cases hd
    · exact p.bare l hm hd
  · exact fun hm => .inr (b.slotLinks_subset hm)

theorem DeadPlaced.extension {isDead : Handle → Bool} {x : Extension}
    (p : (Body.extension x).DeadPlaced isDead) : ∀ l ∈ x.links, l.target.any isDead = false := by
  intro l hl
  have hmem := (Body.extension x).links_perm.mem_iff.mp hl
  rcases List.mem_append.mp hmem with hm | hm
  · obtain ⟨y, hy, hly⟩ := List.mem_flatMap.mp hm
    refine p.listed y hy ?_ l hly
    cases x with
    | schema s =>
      rw [ListEntry.goes, isCore_of_schema rfl y hy]
      rfl
    | _ => cases hy
  · cases hd : l.target.any isDead with
    | false => rfl
    | true => cases p.bare l hm hd

end Body

/-- The cleaners of a registry leave a body without dead references alone. -/
def Registry.SparesLive (r : Registry) : Prop :=
  ∀ clean ∈ r.cleaners, ∀ isDead x, (∀ l ∈ x.links, l.target.any isDead = false) →
    clean isDead x = none

theorem sparesLive_presets {ps : List Preset} {r : Registry} (h : Preset.registry ps = .ok r) :
    r.SparesLive := by
  intro clean hc isDead x hx
  rcases Preset.mem_cleaners h hc with rfl | rfl
  · cases x with
    | diagram d =>
      have hdead : d.deadViews isDead = [] := by
        rw [Diagram.deadViews, List.map_eq_nil_iff, List.filter_eq_nil_iff]
        intro v hv
        exact Bool.eq_false_iff.mp (hx v.shown.link (List.mem_map_of_mem hv))
      simp [Preset.cleanDiagram, hdead]
    | _ => rfl
  · cases x with
    | schema s =>
      have hdead : s.hasDead isDead = false := by
        rw [SerializerSchema.hasDead, Bool.or_eq_false_iff, List.any_eq_false, List.any_eq_false]
        constructor
        · intro c hc
          refine Bool.eq_false_iff.mp (hx c.link (List.mem_append_right _ (.tail _ ?_)))
          exact List.mem_append_left _ (List.mem_map_of_mem hc)
        · intro n hn
          refine Bool.eq_false_iff.mp (hx n.owner.link (List.mem_append_right _ (.tail _ ?_)))
          exact List.mem_append_right _ (List.mem_map_of_mem hn)
      simp [Preset.cleanSchema, hdead]
    | _ => rfl

namespace Graph

variable {g g' : Graph}

/-- A sweep of a graph in which extensions hold no dead references prunes, and cleans nothing. -/
theorem liveAt_sweep_of_placed (w : g.WellFormed) (hr : g.registry.SparesLive)
    (hp : ∀ h e, g.LiveAt h e → e.body.DeadPlaced g.isDeleted) {h : Handle} {e' : Element} :
    g.sweep.1.LiveAt h e' ↔ ∃ e, g.LiveAt h e ∧ e' = (e.prune g.isDeleted).1 := by
  have hcleaned : ∀ e : Element, e.body.DeadPlaced g.isDeleted →
      cleanedAll g.isDeleted g.registry.cleaners (e.prune g.isDeleted).1 =
        (e.prune g.isDeleted).1 := by
    intro e p
    have hsame : ∀ c ∈ g.registry.cleaners,
        cleaned g.isDeleted c (e.prune g.isDeleted).1 = (e.prune g.isDeleted).1 := by
      intro c hc
      rw [cleaned]
      split
      · next x hx =>
        rw [e.fst_prune] at hx
        rw [Body.eq_of_prune_eq_extension hx] at p
        rw [hr c hc g.isDeleted x p.extension]
      · rfl
    rw [cleanedAll]
    generalize g.registry.cleaners = cs at hsame
    induction cs with
    | nil => rfl
    | cons c cs ih =>
      rw [List.foldl_cons, hsame c List.mem_cons_self]
      exact ih fun c hc => hsame c (List.mem_cons_of_mem _ hc)
  rw [liveAt_sweep w]
  refine exists_congr fun e => and_congr_right fun hl => ?_
  rw [hcleaned e (hp h e hl)]

def SameFamilies (g g' : Graph) : Prop :=
  ∀ h e', g'.element? h = some e' →
    ∃ e, g.element? h = some e ∧ ∀ F : Family, F.admits e'.body = F.admits e.body

theorem admits_mapChildren (F : Family) (f : List Handle → List Handle) (b : Body) :
    F.admits (b.mapChildren f) = F.admits b := by
  cases b <;> cases F <;> rfl

theorem admits_prune (F : Family) (isDead : Handle → Bool) (b : Body) :
    F.admits (b.prune isDead) = F.admits b := by
  cases b <;> cases F <;> rfl

theorem sameFamilies_delete (h : Handle) (g : Graph) :
    SameFamilies g ((Change.delete h).run g) := by
  have l := lasting_eq fun (e : Element) (F : Family) => F.admits e.body
  have v := l.evolves_delete (fun _ => rfl)
    (fun e f => funext fun F => admits_mapChildren F f e.body) h g
  intro h' e' he'
  obtain ⟨e, he, hf⟩ := v.element? he'
  exact ⟨e, he, congrFun hf⟩

/-- Every reference is bound, to an element that has its path and is of its family. Where this
element is deleted nothing has the path any more. -/
def Settled (g : Graph) : Prop :=
  ∀ h e, g.LiveAt h e → ∀ l ∈ e.body.links, ∃ t x, l.target = some t ∧ g.element? t = some x ∧
    x.path = l.path ∧ l.family.admits x.body = true ∧ (x.deleted = true → g.lookup l.path = none)

theorem mem_snd_resolveAll (w : g.WellFormed) {fault : GraphError} : fault ∈ g.resolveAll.2 ↔
    ∃ h e, g.LiveAt h e ∧ ∃ l ∈ e.body.links, g.resolve l = .error fault := by
  simp only [resolveAll, resolveFaults, List.mem_flatMap, List.mem_filterMap]
  have hfault : ∀ l, g.resolveFault? l = some fault ↔ g.resolve l = .error fault := by
    intro l
    rw [resolveFault?]
    cases g.resolve l <;> simp
  simp only [hfault]
  constructor
  · rintro ⟨⟨h, e⟩, hl, l, hm, hr⟩
    exact ⟨h, e, (mem_live w).mp hl, l, hm, hr⟩
  · rintro ⟨h, e, hl, l, hm, hr⟩
    exact ⟨(h, e), (mem_live w).mpr hl, l, hm, hr⟩

theorem settled_resolveAll (w : g.WellFormed) (h : g.resolveAll.2 = []) :
    g.resolveAll.1.Settled := by
  intro k e' hl l hlinks
  obtain ⟨e, hle, rfl⟩ := (liveAt_resolveAll w).mp hl
  rw [Body.links_rebind, List.mem_map] at hlinks
  obtain ⟨l₀, hl₀, rfl⟩ := hlinks
  have hresolves : ∃ t, g.resolve l₀ = .ok t := by
    cases hr : g.resolve l₀ with
    | ok t => exact ⟨t, rfl⟩
    | error fault =>
      have hmem := (mem_snd_resolveAll w).mpr ⟨k, e, hle, l₀, hl₀, hr⟩
      rw [h] at hmem
      cases hmem
  obtain ⟨t, x, ht, hx, hp, ha⟩ := binds_resolveAll w hresolves
  exact ⟨t, x, ht, hx.1, hp, ha, fun hd => by rw [hx.2] at hd; cases hd⟩

theorem Thinned.exists_liveAt {bound : Nat} (t : Thinned bound g g') {h : Handle} {e' : Element}
    (hl : g'.LiveAt h e') : ∃ e, g.LiveAt h e ∧ Element.Thinned e e' := by
  obtain ⟨e, he, hte⟩ := t.exists_element hl.1
  refine ⟨e, ⟨he, ?_⟩, hte⟩
  cases hd : e.deleted with
  | false => rfl
  | true => exact absurd (hte.deleted hd) (by rw [hl.2]; exact Bool.false_ne_true)

/-- A deletion takes the owners of paths away, and puts no others in their places. -/
theorem Settled.delete (s : g.Settled) (w : g.WellFormed) (h : Handle) :
    ((Change.delete h).run g).Settled := by
  rcases run_delete w h with hsame | hgone
  · rw [hsame]
    exact s
  · have hf := sameFamilies_delete h g
    generalize (Change.delete h).run g = g' at hgone hf
    have ht := hgone.thinned
    intro k e' hl l hlinks
    obtain ⟨e, hle, hte⟩ := ht.exists_liveAt hl
    obtain ⟨t, x, htl, hx, hp, ha, hdead⟩ := s k e hle l (hte.links ▸ hlinks)
    obtain ⟨x', hx', htx, -⟩ := ht.element t x hx
    obtain ⟨y, hy, hfam⟩ := hf t x' hx'
    obtain rfl := Option.some.inj (hy.symm.trans hx)
    refine ⟨t, x', htl, hx', htx.path.trans hp, (hfam _).trans ha, fun hd' => ?_⟩
    rw [Option.eq_none_iff_forall_ne_some]
    intro k' hk'
    obtain ⟨z', hz', hzp⟩ := (hgone.wellFormed.lookup_iff _ _).mp hk'
    obtain ⟨z, hz, htz⟩ := ht.exists_liveAt hz'
    have hpath : z.path = l.path := htz.path.symm.trans hzp
    cases hdy : y.deleted with
    | true =>
      have hlookup := w.lookup_path hz
      rw [hpath, hdead hdy] at hlookup
      cases hlookup
    | false =>
      obtain rfl := w.handle_eq hz ⟨hy, hdy⟩ (hpath.trans hp.symm)
      rw [Option.some.inj (hx'.symm.trans hz'.1), hz'.2] at hd'
      cases hd'

/-- Deletions one after the other, each of which may fail. -/
def deleteAll (hs : List Handle) (g : Graph) : Graph :=
  hs.foldl (fun g h => (Change.delete h).run g) g

theorem lived_settled_deleteAll {r : Registry} (a : Lived r g) (s : g.Settled) (hs : List Handle) :
    Lived r (g.deleteAll hs) ∧ (g.deleteAll hs).Settled := by
  induction hs generalizing g with
  | nil => exact ⟨a, s⟩
  | cons h hs ih => exact ih (a.change trivial) (s.delete a.wellFormed h)

theorem mem_dead (w : g.WellFormed) {l : HeldLink} : l ∈ g.dead ↔
    ∃ e, g.LiveAt l.holder e ∧ l.link ∈ e.body.links ∧ l.link.target.any g.isDeleted = true := by
  simp only [dead, links, List.mem_filter, List.mem_flatMap, List.mem_map]
  constructor
  · rintro ⟨⟨⟨h, e⟩, hl, link, hm, rfl⟩, hd⟩
    exact ⟨e, (mem_live w).mp hl, hm, hd⟩
  · rintro ⟨e, hl, hm, hd⟩
    exact ⟨⟨(l.holder, e), (mem_live w).mpr hl, l.link, hm, rfl⟩, hd⟩

section Sweep

variable (w : g.WellFormed) (hr : g.registry.SparesLive)
  (hp : ∀ h e, g.LiveAt h e → e.body.DeadPlaced g.isDeleted)
include w hr hp

theorem mem_dead_sweep {l : HeldLink} : l ∈ g.sweep.1.dead ↔
    ∃ e, g.LiveAt l.holder e ∧ l.link ∈ e.body.slotLinks ∧
      l.link.target.any g.isDeleted = true := by
  rw [mem_dead ((keeps_sweep g).wellFormed w), isDeleted_sweep]
  constructor
  · rintro ⟨e', hl', hm⟩
    obtain ⟨e, hl, rfl⟩ := (liveAt_sweep_of_placed w hr hp).mp hl'
    have hs := e.swept_prune g.isDeleted
    exact ⟨e, hl, ((hp _ e hl).mem_links_iff (congrArg Element.body hs.bare) hs.listed).mp hm⟩
  · rintro ⟨e, hl, hm⟩
    have hs := e.swept_prune g.isDeleted
    exact ⟨_, (liveAt_sweep_of_placed w hr hp).mpr ⟨e, hl, rfl⟩,
      ((hp _ e hl).mem_links_iff (congrArg Element.body hs.bare) hs.listed).mpr hm⟩

theorem resolve_sweep (s : g.Settled) {h : Handle} {e' : Element} (hl' : g.sweep.1.LiveAt h e')
    {l : Link} (hm : l ∈ e'.body.links) :
    (l.target.any g.isDeleted = false ∧ ∃ t, g.sweep.1.resolve l = .ok t) ∨
      l.target.any g.isDeleted = true ∧
        g.sweep.1.resolve l = .error (.referenceResolution l.path l.family.label none) := by
  obtain ⟨e, hl, rfl⟩ := (liveAt_sweep_of_placed w hr hp).mp hl'
  rw [e.fst_prune] at hm
  obtain ⟨t, x, ht, hx, hpath, ha, hdead⟩ := s h e hl l (e.body.links_prune g.isDeleted hm)
  have hany : l.target.any g.isDeleted = x.deleted := by
    rw [ht, Option.any_some, isDeleted, hx, Option.any_some]
  rw [hany]
  cases hd : x.deleted with
  | true =>
    refine .inr ⟨rfl, ?_⟩
    have hlookup : g.sweep.1.lookup l.path = none := by
      rw [lookup, (keeps_sweep g).index]
      exact hdead hd
    rw [resolve, hlookup]
  | false =>
    refine .inl ⟨rfl, t, (resolve_eq_ok ((keeps_sweep g).wellFormed w)).mpr ?_⟩
    refine ⟨_, (liveAt_sweep_of_placed w hr hp).mpr ⟨x, ⟨hx, hd⟩, rfl⟩, ?_, ?_⟩
    · rw [x.fst_prune]
      exact hpath
    · rw [x.fst_prune]
      exact (admits_prune _ _ _).trans ha

theorem mem_snd_resolveAll_sweep (s : g.Settled) {fault : GraphError} :
    fault ∈ g.sweep.1.resolveAll.2 ↔ ∃ l ∈ g.sweep.1.dead,
      fault = .referenceResolution l.link.path l.link.family.label none := by
  have w' := (keeps_sweep g).wellFormed w
  rw [mem_snd_resolveAll w']
  constructor
  · rintro ⟨h, e', hl', l, hm, hf⟩
    rcases resolve_sweep w hr hp s hl' hm with ⟨-, t, ht⟩ | ⟨hd, he⟩
    · rw [ht] at hf
      cases hf
    · rw [he] at hf
      refine ⟨⟨h, l⟩, (mem_dead w').mpr ⟨e', hl', hm, ?_⟩, (Except.error.inj hf).symm⟩
      rw [isDeleted_sweep]
      exact hd
  · rintro ⟨⟨h, l⟩, hdead, rfl⟩
    obtain ⟨e', hl', hm, hd⟩ := (mem_dead w').mp hdead
    rw [isDeleted_sweep] at hd
    refine ⟨h, e', hl', l, hm, ?_⟩
    rcases resolve_sweep w hr hp s hl' hm with ⟨hd', -⟩ | ⟨-, he⟩
    · rw [hd] at hd'
      cases hd'
    · exact he

end Sweep

/-- A graph of which all references were resolved, and from which elements were then deleted. If the
references to these stand in core entries that are dead, and in set implementations, a sweep takes
out those in the entries. Those in set implementations are left, whether a class mapping still names
them or not, and they are what can't be resolved. -/
theorem dead_sweep_deleteAll {ps : List Preset} {r : Registry} (hr : Preset.registry ps = .ok r)
    {g₀ : Graph} (a : Lived r g₀) (hresolved : g₀.resolveAll.2 = []) (hs : List Handle)
    (hg : g = g₀.resolveAll.1.deleteAll hs)
    (hp : ∀ h e, g.LiveAt h e → e.body.DeadPlaced g.isDeleted) :
    (∀ l, l ∈ g.sweep.1.dead ↔ ∃ e, g.LiveAt l.holder e ∧ l.link ∈ e.body.slotLinks ∧
      l.link.target.any g.isDeleted = true) ∧
    (∀ fault, fault ∈ g.sweep.1.resolveAll.2 ↔ ∃ l ∈ g.sweep.1.dead,
      fault = .referenceResolution l.link.path l.link.family.label none) ∧
    ((∀ h e, g.LiveAt h e → ∀ l ∈ e.body.slotLinks, l.target.any g.isDeleted = false) →
      g.sweep.1.dead = [] ∧ g.sweep.1.resolveAll.2 = []) := by
  have hresolve : Lived r g₀.resolveAll.1 := a.change (c := .resolve) trivial
  obtain ⟨al, s⟩ := lived_settled_deleteAll hresolve (settled_resolveAll a.wellFormed hresolved) hs
  rw [← hg] at al s
  have w := al.wellFormed
  have hspares : g.registry.SparesLive := al.registry_eq ▸ sparesLive_presets hr
  have hdead (l : HeldLink) := mem_dead_sweep w hspares hp (l := l)
  refine ⟨hdead, fun _ => mem_snd_resolveAll_sweep w hspares hp s, fun hslots => ?_⟩
  have hnone : g.sweep.1.dead = [] := by
    rw [List.eq_nil_iff_forall_not_mem]
    intro l hl
    obtain ⟨e, hle, hm, hd⟩ := (hdead l).mp hl
    rw [hslots _ e hle _ hm] at hd
    cases hd
  refine ⟨hnone, ?_⟩
  rw [List.eq_nil_iff_forall_not_mem]
  intro fault hf
  obtain ⟨l, hl, -⟩ := (mem_snd_resolveAll_sweep w hspares hp s).mp hf
  rw [hnone] at hl
  cases hl

def mappedPartyGraph : Graph :=
  (Change.create ⟨"M"⟩ (.mapping {
    slots := [{
      id := .explicit "party", target := .ofText "Party", kind := .pureInstance none none [] }]
    top := [0] })).run
    ((Change.create ⟨"Person"⟩ (.class { superTypes := [.ofText "Party"] })).run
      ((Change.create ⟨"Party"⟩ (.class {})).run (new Preset.full)))

def unmappedPartyGraph : Graph := mappedPartyGraph.resolveAll.1.deleteAll [⟨12⟩]

theorem lived_mappedPartyGraph : Lived Preset.full mappedPartyGraph :=
  ((Lived.new.change (by rfl)).change (by rfl)).change (by rfl)

theorem placed_unmappedPartyGraph {h : Handle} {e : Element}
    (hl : unmappedPartyGraph.LiveAt h e) : e.body.DeadPlaced unmappedPartyGraph.isDeleted := by
  have hall : ∀ l ∈ unmappedPartyGraph.live,
      l.2.body.DeadPlaced unmappedPartyGraph.isDeleted := by
    decide +kernel
  have w : unmappedPartyGraph.WellFormed :=
    ((lived_mappedPartyGraph.change (c := .resolve) trivial).change (c := .delete ⟨12⟩)
      trivial).wellFormed
  exact hall (h, e) ((mem_live w).mpr hl)

theorem dead_sweep_deleteAll_party : mappedPartyGraph.resolveAll.2 = [] ∧
    (∀ l, l ∈ unmappedPartyGraph.sweep.1.dead ↔ ∃ e, unmappedPartyGraph.LiveAt l.holder e ∧
      l.link ∈ e.body.slotLinks ∧ l.link.target.any unmappedPartyGraph.isDeleted = true) ∧
    (∀ fault, fault ∈ unmappedPartyGraph.sweep.1.resolveAll.2 ↔
      ∃ l ∈ unmappedPartyGraph.sweep.1.dead,
        fault = .referenceResolution l.link.path l.link.family.label none) ∧
    ((∀ h e, unmappedPartyGraph.LiveAt h e → ∀ l ∈ e.body.slotLinks,
        l.target.any unmappedPartyGraph.isDeleted = false) →
      unmappedPartyGraph.sweep.1.dead = [] ∧ unmappedPartyGraph.sweep.1.resolveAll.2 = []) :=
  ⟨rfl, dead_sweep_deleteAll Preset.registry_all lived_mappedPartyGraph rfl [⟨12⟩] rfl
    fun _ _ hl => placed_unmappedPartyGraph hl⟩

/-- The super type and the class mapping are gone after the sweep. What is left of the class mapping
in its slot is still bound to the deleted class. -/
theorem dead_sweep_slot : Lived Preset.full mappedPartyGraph ∧
    mappedPartyGraph.resolveAll.2 = [] ∧
    unmappedPartyGraph.dead =
      [⟨⟨13⟩, ⟨.class, ⟨"Party"⟩, some ⟨12⟩⟩⟩, ⟨⟨14⟩, ⟨.class, ⟨"Party"⟩, some ⟨12⟩⟩⟩] ∧
    ((unmappedPartyGraph.sweep.1.mapping? ⟨14⟩).map Mapping.top) = some [] ∧
    unmappedPartyGraph.sweep.1.dead = [⟨⟨14⟩, ⟨.class, ⟨"Party"⟩, some ⟨12⟩⟩⟩] ∧
    unmappedPartyGraph.sweep.1.resolveAll.2 =
      [.referenceResolution ⟨"Party"⟩ Family.class.label none] :=
  ⟨lived_mappedPartyGraph, rfl, by decide +kernel, by decide +kernel, by decide +kernel,
    by decide +kernel⟩

end Graph

end ModelGraph
