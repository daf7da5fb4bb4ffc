import ModelGraph.Proofs.Outlines

namespace ModelGraph

section Settled

theorem ConnectionStore.links_settled_subset (s : ConnectionStore) : s.settled.links ⊆ s.links := by
  cases s with
  | model => exact List.Subset.refl _
  | store r =>
    rw [settled]
    split
    · exact List.nil_subset _
    · exact List.Subset.refl _

theorem Connection.links_settled_subset (c : Connection) : c.settled.links ⊆ c.links := by
  rw [links, links, settled]
  cases c.store with
  | none => exact List.Subset.refl _
  | some s => exact s.links_settled_subset

theorem ConnectionValue.links_settled_subset (c : ConnectionValue) : c.settled.links ⊆ c.links := by
  cases c with
  | pointer r => exact List.Subset.refl _
  | embedded c => exact c.links_settled_subset

theorem flatMap_map_subset {α β : Type} {f : α → α} {links : α → List β}
    (h : ∀ a, links (f a) ⊆ links a) (as : List α) :
    (as.map f).flatMap links ⊆ as.flatMap links := by
  intro l hl
  rw [List.flatMap_map] at hl
  obtain ⟨a, ha, hl⟩ := List.mem_flatMap.mp hl
  exact List.mem_flatMap.mpr ⟨a, ha, h a hl⟩

theorem append_subset_append {α : Type} {as as' bs bs' : List α} (ha : as ⊆ as') (hb : bs ⊆ bs') :
    as ++ bs ⊆ as' ++ bs' :=
  List.append_subset.mpr ⟨List.subset_append_of_subset_left _ ha,
    List.subset_append_of_subset_right _ hb⟩

theorem StoreConnections.links_settled_subset (g : StoreConnections) :
    g.settled.links ⊆ g.links :=
  append_subset_append g.store.links_settled_subset
    (flatMap_map_subset (fun c => c.connection.links_settled_subset) g.connections)

theorem Runtime.links_settled_subset (r : Runtime) : r.settled.links ⊆ r.links :=
  append_subset_append (List.Subset.refl _)
    (flatMap_map_subset StoreConnections.links_settled_subset r.connections)

theorem RuntimeValue.links_settled_subset (r : RuntimeValue) : r.settled.links ⊆ r.links := by
  cases r with
  | pointer r => exact List.Subset.refl _
  | embedded r => exact r.links_settled_subset

theorem Service.links_settled_subset (s : Service) : s.settled.links ⊆ s.links := by
  rw [links, links, settled]
  refine append_subset_append ?_ (List.Subset.refl _)
  cases s.execution with
  | none => exact List.Subset.refl _
  | some e => exact List.cons_subset_cons _ e.runtime.links_settled_subset

theorem Mapping.links_renewed (m : Mapping) : m.renewed.links = m.links := by
  have hs : ∀ s : SetImplementation, s.renewed.links = s.links := fun _ => rfl
  have he : ∀ e : EnumerationMapping, e.renewed.links = e.links := fun _ => rfl
  simp only [links, renewed, List.flatMap_map, hs, he]

end Settled

namespace Body

theorem links_renewed_subset (b : Body) : b.renewed.links ⊆ b.links := by
  cases b with
  | database d => exact fun l hl => links_standard (.database d) ▸ hl
  | mapping m => exact (congrArg (· ⊆ m.links) m.links_renewed).mpr (List.Subset.refl _)
  | connection c => exact c.links_settled_subset
  | runtime r => exact r.links_settled_subset
  | service s => exact s.links_settled_subset
  | _ => exact List.Subset.refl _

/-- A body with the outline of another one, and no references but those of this one, all paths where
`μ` takes them. -/
structure Moved (μ : Path → Path) (b b' : Body) : Prop where
  outline : b'.outline = b.outline.rebind (repath (.along μ))
  links : ∀ l ∈ b'.links, ∃ k ∈ b.links, l.family = k.family ∧ l.path = μ k.path

variable {μ : Path → Path} {b b' : Body}

theorem Moved.admits (h : b.Moved μ b') (F : Family) : F.admits b' = F.admits b := by
  rw [← F.admits_outline b', h.outline, F.admits_rebind, F.admits_outline]

theorem Moved.kind (h : b.Moved μ b') : b'.kind = b.kind := by
  rw [← kind_outline b', h.outline, kind_rebind, kind_outline]

theorem moved_reread (μ : Path → Path) (b : Body) : b.Moved μ (b.reread (.along μ)) := by
  constructor
  case outline => rw [reread, outline_renewed, outline_rebind]
  case links =>
    intro l hl
    have hl := links_renewed_subset _ hl
    rw [links_rebind] at hl
    obtain ⟨k, hk, rfl⟩ := List.mem_map.mp hl
    exact ⟨k, hk, rfl, rfl⟩

theorem moved_standard (b : Body) : b.Moved id b.standard := by
  constructor
  case outline => rw [outline_standard, Naming.along_id, rebind_path]
  case links => exact fun l hl => ⟨l, links_standard b ▸ hl, rfl, rfl⟩

end Body

namespace Graph

variable {contents contents' : List (Path × Body)} {g g' : Graph} {μ : Path → Path}

/-- A map of paths that takes contents and the packages around them to different paths, packages
along with what they contain, and leaves primitive types where they are. -/
structure Carries (μ : Path → Path) (contents : List (Path × Body)) : Prop where
  primitive : ∀ name ∈ primitiveNames, μ ⟨name⟩ = ⟨name⟩
  ancestors : ∀ p b, (p, b) ∈ contents → (μ p).ancestors = p.ancestors.map μ
  injective : ∀ p q b b', Stock contents p b → Stock contents q b' → μ p = μ q → p = q
  fault : ∀ p b, (p, b) ∈ contents → (μ p).fault? = none

theorem Stocked.carries_id (s : Stocked contents g) : Carries id contents where
  primitive _ _ := rfl
  ancestors _ _ _ := (List.map_id _).symm
  injective _ _ _ _ _ _ h := h
  fault := by
    intro p b hb
    obtain ⟨h, e, hl, rfl, -⟩ := s.kept p b (.content hb)
    exact s.wellFormed.fault?_path hl

/-- The second contents are the first ones, each where `μ` takes it and with a body to which its own
is related, in any order. -/
structure Transfers (μ : Path → Path) (R : Body → Body → Prop) (contents contents' : List (Path × Body)) :
    Prop where
  carries : Carries μ contents
  sent : ∀ p b, (p, b) ∈ contents → ∃ b', (μ p, b') ∈ contents' ∧ R b b'
  came : ∀ q b', (q, b') ∈ contents' → ∃ p b, (p, b) ∈ contents ∧ μ p = q ∧ R b b'

namespace Transfers

variable {R : Body → Body → Prop} (t : Transfers μ R contents contents')
include t

theorem mono {S : Body → Body → Prop} (h : ∀ b b', R b b' → S b b') :
    Transfers μ S contents contents' where
  carries := t.carries
  sent p b hb := by
    obtain ⟨b', hb', hr⟩ := t.sent p b hb
    exact ⟨b', hb', h b b' hr⟩
  came q b' hb' := by
    obtain ⟨p, b, hb, hp, hr⟩ := t.came q b' hb'
    exact ⟨p, b, hb, hp, h b b' hr⟩

variable (hpackage : R (.package []) (.package [])) (hprimitive : R .primitiveType .primitiveType)
include hpackage hprimitive

theorem stock {p : Path} {b : Body} (s : Stock contents p b) :
    ∃ b', Stock contents' (μ p) b' ∧ R b b' := by
  cases s with
  | primitive hn => exact ⟨_, (t.carries.primitive _ hn).symm ▸ .primitive hn, hprimitive⟩
  | content hb =>
    obtain ⟨b', hb', hr⟩ := t.sent _ _ hb
    exact ⟨b', .content hb', hr⟩
  | package hb hq =>
    obtain ⟨b', hb', -⟩ := t.sent _ _ hb
    exact ⟨_, .package hb' (t.carries.ancestors _ _ hb ▸ List.mem_map_of_mem hq), hpackage⟩

theorem stock_back {q : Path} {b' : Body} (s : Stock contents' q b') :
    ∃ p b, Stock contents p b ∧ μ p = q ∧ R b b' := by
  cases s with
  | primitive hn => exact ⟨_, _, .primitive hn, t.carries.primitive _ hn, hprimitive⟩
  | content hb' =>
    obtain ⟨p, b, hb, hp, hr⟩ := t.came _ _ hb'
    exact ⟨p, b, .content hb, hp, hr⟩
  | package hb' hq =>
    obtain ⟨p, b, hb, rfl, -⟩ := t.came _ _ hb'
    rw [t.carries.ancestors _ _ hb] at hq
    obtain ⟨o, ho, rfl⟩ := List.mem_map.mp hq
    exact ⟨o, _, .package hb ho, rfl, hpackage⟩

end Transfers

/-- The second contents are the first ones at the paths to which `μ` takes them. -/
abbrev Relocates (μ : Path → Path) : List (Path × Body) → List (Path × Body) → Prop :=
  Transfers μ (Body.Moved μ)

namespace Relocates

variable (t : Relocates μ contents contents')
include t

theorem stock {p : Path} {b : Body} (s : Stock contents p b) :
    ∃ b', Stock contents' (μ p) b' ∧ b.Moved μ b' :=
  Transfers.stock t ⟨rfl, by simp [Body.links]⟩ ⟨rfl, by simp [Body.links]⟩ s

theorem stock_back {q : Path} {b' : Body} (s : Stock contents' q b') :
    ∃ p b, Stock contents p b ∧ μ p = q ∧ b.Moved μ b' :=
  Transfers.stock_back t ⟨rfl, by simp [Body.links]⟩ ⟨rfl, by simp [Body.links]⟩ s

end Relocates

theorem Stocked.resolves_iff (s : Stocked contents g) {l : Link} : (∃ t, g.resolve l = .ok t) ↔
    ∃ b, Stock contents l.path b ∧ l.family.admits b = true := by
  constructor
  · rintro ⟨t, ht⟩
    obtain ⟨e, he, hp, ha⟩ := (resolve_eq_ok s.wellFormed).mp ht
    exact ⟨e.body.hull, hp ▸ s.gained t e he, (Family.admits_hull _ _).trans ha⟩
  · rintro ⟨b, hb, ha⟩
    obtain ⟨t, e, he, hp, rfl⟩ := s.kept _ _ hb
    exact ⟨t, (resolve_eq_ok s.wellFormed).mpr ⟨e, he, hp, (Family.admits_hull _ _).symm.trans ha⟩⟩

theorem Stocked.resolved_iff (s : Stocked contents g) : g.resolutionFaults = [] ↔
    ∀ p b, Stock contents p b → ∀ l ∈ b.links,
      ∃ t, Stock contents l.path t ∧ l.family.admits t = true := by
  rw [resolutionFaults_eq_nil s.wellFormed]
  constructor
  · intro hr p b hb l hl
    obtain ⟨h, e, he, -, rfl⟩ := s.kept p b hb
    exact s.resolves_iff.mp (hr h e he l (Body.links_hull _ ▸ hl))
  · intro hr h e he l hl
    exact s.resolves_iff.mpr (hr _ _ (s.gained h e he) l ((Body.links_hull _).symm ▸ hl))

theorem Stocked.resolved_relocated (s : Stocked contents g) (s' : Stocked contents' g')
    (t : Relocates μ contents contents') (hr : g.resolutionFaults = []) :
    g'.resolutionFaults = [] := by
  rw [s'.resolved_iff]
  intro q b' hb' l hl
  obtain ⟨p, b, hb, -, hm⟩ := t.stock_back hb'
  obtain ⟨k, hk, hf, hp⟩ := hm.links l hl
  obtain ⟨x, hx, ha⟩ := s.resolved_iff.mp hr p b hb k hk
  obtain ⟨x', hx', hm'⟩ := t.stock hx
  exact ⟨x', hp ▸ hx', by rw [hf, hm'.admits, ha]⟩

end Graph

open ModelGraph.Graph

variable {r : Registry} {m n : Model} {entries : List Entry} {contents : List (Path × Body)}
  {g : Graph} {μ : Path → Path}

theorem exists_map_eq {α β : Type} {f : β → α} {P : β → Prop} {as : List α}
    (h : ∀ a ∈ as, ∃ b, f b = a ∧ P b) : ∃ bs : List β, bs.map f = as ∧ ∀ b ∈ bs, P b := by
  induction as with
  | nil => exact ⟨[], rfl, by simp⟩
  | cons a as ih =>
    obtain ⟨b, hb, hp⟩ := h a List.mem_cons_self
    obtain ⟨bs, hbs, hps⟩ := ih fun c hc => h c (List.mem_cons_of_mem a hc)
    exact ⟨b :: bs, by rw [List.map_cons, hb, hbs], List.forall_mem_cons.mpr ⟨hp, hps⟩⟩

/-- An entry that passes its checks and describes what is read again of one of some contents, at the
path where `μ` takes it. -/
structure Entry.Rewritten (r : Registry) (μ : Path → Path) (contents : List (Path × Body))
    (e : Entry) : Prop where
  passes : e.Passes r
  content : ∃ p b, (p, b) ∈ contents ∧ μ p = e.entity.path ∧
    e.content r = .ok (e.entity.path, b.reread (.along μ))

theorem Graph.Prepared.rewritten {ps : List Preset} (hr : Preset.registry ps = .ok r)
    (p : Prepared r m entries contents g) (hc : Carries μ contents)
    (w : Writes r (spelledAlong μ contents) n) :
    ∀ v ∈ n, ∃ e : Entry, e.entity = v ∧ e.Rewritten r μ contents := by
  intro v hv
  obtain ⟨_, hspelled, hwritten⟩ := w.content v hv
  obtain ⟨q, b, hb, hq, rfl⟩ := mem_spelledAlong.mp hspelled
  obtain ⟨e, he, hcontent⟩ := (mem_of_mapM_ok p.contents_eq).mp hb
  have hpasses := p.passes e he
  have hrespelled := Entry.respelled hr hpasses.kind (Entry.content_eq_ok.mp hcontent).1
    (hq ▸ hc.fault q b hb) hwritten
  refine ⟨⟨v, e.kind⟩, rfl, ⟨?_, hq ▸ hc.fault q b hb, hrespelled.header⟩, q, b, hb, hq,
    Entry.content_eq_ok.mpr ⟨hrespelled.body, rfl⟩⟩
  rw [hrespelled.classifier]
  exact hpasses.kind

section Rewritten

variable {entries' : List Entry} {contents' : List (Path × Body)} (hm : Carries μ contents)
  (hr : ∀ e ∈ entries', e.Rewritten r μ contents)
  (hc : entries'.mapM (Entry.content r) = .ok contents')
include hm hr hc

theorem transfers_of_rewritten (s : Stocked contents g)
    (w : Writes r (spelledAlong μ contents) (entries'.map Entry.entity)) :
    Transfers μ (fun b b' => b' = b.reread (.along μ)) contents contents' := by
  constructor
  case carries => exact hm
  case sent =>
    intro p b hb
    obtain ⟨v, hv, -, hp⟩ := w.written _ _ (mem_spelledAlong.mpr ⟨p, b, hb, rfl, rfl⟩)
    obtain ⟨e, he, rfl⟩ := List.mem_map.mp hv
    obtain ⟨q, b', hb', hq, hcontent⟩ := (hr e he).content
    obtain rfl := hm.injective _ _ _ _ (.content hb) (.content hb') (hp.symm.trans hq.symm)
    obtain rfl := s.unique (.content hb) (.content hb')
    exact ⟨_, (mem_of_mapM_ok hc).mpr ⟨e, he, hp ▸ hcontent⟩, rfl⟩
  case came =>
    intro q b' hb'
    obtain ⟨e, he, hcontent⟩ := (mem_of_mapM_ok hc).mp hb'
    obtain ⟨p, b, hb, hp, hcontent'⟩ := (hr e he).content
    rw [hcontent] at hcontent'
    cases hcontent'
    exact ⟨p, b, hb, hp, rfl⟩

theorem compatible_of_rewritten (s : Stocked contents g)
    (t : Transfers μ (fun b b' => b' = b.reread (.along μ)) contents contents')
    (hn : ((entries'.map Entry.entity).map Entity.path).Nodup) : Compatible contents' := by
  refine compatible_of_passes (fun e he => (hr e he).passes) hn hc ?_
  intro q b b' hb hb'
  obtain ⟨p, x, hx, rfl, rfl⟩ := t.stock_back rfl rfl hb
  obtain ⟨p', x', hx', hp, rfl⟩ := t.stock_back rfl rfl hb'
  obtain rfl := hm.injective _ _ _ _ hx' hx hp
  rw [s.unique hx hx']

end Rewritten

/-- What contents are written as, each at the path where `μ` takes it and every reference as well, is
prepared as the contents were. -/
theorem Graph.Prepared.rebuild_along {ps : List Preset} (hr : Preset.registry ps = .ok r)
    (p : Prepared r m entries contents g) (hm : Carries μ contents)
    (w : Writes r (spelledAlong μ contents) n) :
    ∃ entries' contents' g', Prepared r n entries' contents' g' ∧
      Transfers μ (fun b b' => b' = b.reread (.along μ)) contents contents' := by
  obtain ⟨entries', rfl, hrewritten⟩ := exists_map_eq (p.rewritten hr hm w)
  obtain ⟨contents', hcontents⟩ := mapM_ok (f := Entry.content r) fun e he =>
    ⟨_, (hrewritten e he).content.choose_spec.choose_spec.2.2⟩
  have t := transfers_of_rewritten hm hrewritten hcontents p.stocked w
  have hcompatible := compatible_of_rewritten hm hrewritten hcontents p.stocked t w.nodup
  have hcontents' : entries'.mapM (Entry.content (new r).registry) = .ok contents' := by
    rw [registry_new, hcontents]
  have hregistered := (stocked_new r).register_ok hcontents' hcompatible
  obtain ⟨more, hmore, hstocked, -⟩ := (stocked_new r).register hregistered
  rw [hcontents'] at hmore
  cases hmore
  have hmoved : Relocates μ contents contents' := t.mono fun b b' hb' => hb' ▸ b.moved_reread μ
  refine ⟨entries', contents', (register entries' (new r)).1, ?_, t⟩
  exact ⟨rfl, w.nodup, fun e he => (hrewritten e he).passes, hcontents, Prod.ext rfl hregistered,
    hstocked, p.stocked.resolved_relocated hstocked hmoved p.resolved⟩

namespace Graph

variable {contents' : List (Path × Body)}

/-- The second contents are the first ones with standard bodies, in any order. -/
def Standardizes (contents contents' : List (Path × Body)) : Prop :=
  ∀ p b', (p, b') ∈ contents' ↔ ∃ b, (p, b) ∈ contents ∧ b' = b.standard

theorem Standardizes.relocates (h : Standardizes contents contents') (s : Stocked contents g) :
    Relocates id contents contents' where
  carries := s.carries_id
  sent p b hb := ⟨b.standard, (h p _).mpr ⟨b, hb, rfl⟩, b.moved_standard⟩
  came q b' hb' := by
    obtain ⟨b, hb, rfl⟩ := (h q b').mp hb'
    exact ⟨q, b, hb, rfl, b.moved_standard⟩

theorem Standardizes.writes (h : Standardizes contents contents') (w : Writes r contents n) :
    Writes r contents' n := by
  refine ⟨?_, ?_, w.nodup, w.ascending⟩
  · intro q b' hb'
    obtain ⟨b, hb, rfl⟩ := (h q b').mp hb'
    obtain ⟨v, hv, hwritten, hp⟩ := w.written q b hb
    exact ⟨v, hv, entity?_standard hwritten, hp⟩
  · intro v hv
    obtain ⟨b, hb, hwritten⟩ := w.content v hv
    exact ⟨b.standard, (h _ _).mpr ⟨b, hb, rfl⟩, entity?_standard hwritten⟩

theorem Prepared.rebuild {ps : List Preset} (hr : Preset.registry ps = .ok r)
    (p : Prepared r m entries contents g) (w : Writes r contents n) :
    ∃ entries' contents' g', Prepared r n entries' contents' g' ∧
      Standardizes contents contents' ∧ Writes r contents' n := by
  obtain ⟨entries', contents', g', p', t⟩ :=
    p.rebuild_along hr p.stocked.carries_id ((writes_spelledAlong_id hr).mpr w)
  have hstandard : ∀ q b, (q, b) ∈ contents → b.reread Link.path = b.standard := by
    intro q b hb
    obtain ⟨e, _, hcontent⟩ := (mem_of_mapM_ok p.contents_eq).mp hb
    exact Entry.reread_path (Entry.content_eq_ok.mp hcontent).1
  have hs : Standardizes contents contents' := by
    intro q b'
    constructor
    · intro hb'
      obtain ⟨_, b, hb, rfl, rfl⟩ := t.came q b' hb'
      exact ⟨b, hb, hstandard _ b hb⟩
    · rintro ⟨b, hb, rfl⟩
      obtain ⟨_, hb', rfl⟩ := t.sent q b hb
      exact hstandard q b hb ▸ hb'
  exact ⟨entries', contents', g', p', hs, hs.writes w⟩

end Graph
end ModelGraph
