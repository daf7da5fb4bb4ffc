import ModelGraph.Proofs.Counterparts
import ModelGraph.Proofs.Differences
import ModelGraph.Proofs.MirroredIds
import ModelGraph.Proofs.NamedSlots

namespace ModelGraph

/-- The property that a property mapping looks up, and the id that it names as its target. -/
structure PropertyLookup where
  owner : Reference .classOrAssociation
  property : String
  target : Option String

namespace PropertyMapping

/-- A property mapping looks a property up unless it embeds a set implementation. -/
def lookup? (p : PropertyMapping) : Option PropertyLookup :=
  match p.embedded? with
  | some _ => none
  | none => some ⟨p.owner, p.property, p.target.filter fun id => !id.isEmpty⟩

theorem lookup?_rebind (f : Rebinding) (p : PropertyMapping) :
    (p.rebind f).lookup? = p.lookup?.map fun l => { l with owner := f _ l.owner } := by
  cases hk : p.kind <;> simp [lookup?, embedded?, rebind, hk]

end PropertyMapping

namespace Mapping

/-- The ids of the set implementations, where those formed from a path are formed anew from the path
to which `μ` takes it. -/
def idsAlong (μ : Path → Path) (m : Mapping) : List String :=
  m.slots.map fun s => if s.id.isInferred then (μ s.target.path).flattened else s.id.value

def parameterIds (m : Mapping) : List String :=
  m.slots.flatMap fun s => s.parameters.map OperationParameter.id

def lookups (m : Mapping) : List PropertyLookup :=
  m.slots.flatMap fun s => s.properties.filterMap PropertyMapping.lookup?

theorem parameterIds_outline (m : Mapping) : m.outline.parameterIds = m.parameterIds := by
  simp [parameterIds, outline, SetImplementation.parameters_anonymous, List.flatMap_map,
    Function.comp_def]

theorem parameterIds_rebind (f : Rebinding) (m : Mapping) :
    (m.rebind f).parameterIds = m.parameterIds := by
  simp [parameterIds, rebind, SetImplementation.parameters_rebind, List.flatMap_map]

theorem lookups_outline (m : Mapping) : m.outline.lookups = m.lookups := by
  have hl : ∀ p : PropertyMapping, PropertyMapping.lookup? { p with producer := none } =
      p.lookup? := fun _ => rfl
  simp [lookups, outline, SetImplementation.properties_anonymous, List.flatMap_map,
    List.filterMap_map, hl]

theorem lookups_rebind (f : Rebinding) (m : Mapping) :
    (m.rebind f).lookups = m.lookups.map fun l => { l with owner := f _ l.owner } := by
  simp [lookups, rebind, SetImplementation.properties_rebind, List.flatMap_map,
    List.filterMap_map, List.map_flatMap, List.map_filterMap, PropertyMapping.lookup?_rebind]

end Mapping

namespace Body

def idsAlong? (μ : Path → Path) (b : Body) : Option (List String) := b.mapping?.map (·.idsAlong μ)

variable {μ : Path → Path}

theorem ids?_reread_along (b : Body) : (b.reread (.along μ)).ids? = b.idsAlong? μ := by
  cases b with
  | mapping m =>
    refine congrArg some ?_
    simp only [Mapping.ids, Mapping.idsAlong, Mapping.renewed, Mapping.rebind, List.map_map]
    refine List.map_congr_left fun s _ => ?_
    obtain ⟨⟨value, inferred⟩, target, root, kind⟩ := s
    cases inferred <;> rfl
  | _ => rfl

theorem steady_idsAlong? {f : Rebinding} (hf : ∀ r, (f .class r).path = r.path) :
    Steady f (idsAlong? μ) where
  hull b := by cases b <;> rfl
  unwire b := by
    cases b with
    | mapping m =>
      simp only [idsAlong?, Body.unwire, mapping?, Option.map_some, Mapping.idsAlong, Mapping.unwire,
        List.map_map]
      rfl
    | _ => rfl
  rebind b := by
    cases b with
    | mapping m =>
      refine congrArg some ?_
      simp only [Mapping.idsAlong, Mapping.rebind, List.map_map]
      refine List.map_congr_left fun s _ => ?_
      have htarget : (s.rebind f).target.path = s.target.path := hf s.target
      have hid : (s.rebind f).id = s.id := rfl
      simp only [Function.comp_apply, htarget, hid]
    | _ => rfl
  none b h := by
    cases b with
    | mapping m => exact absurd rfl h
    | _ => rfl

end Body

namespace Graph

variable {g g' : Graph} {μ : Path → Path} {φ : Handle → Handle}

/-- The wiring of a mapping asks for a class mapping of an id where an operation names the id, and
where a property mapping names it as its target and the property yields a class. -/
def Asks (g : Graph) (m : Mapping) (id : String) : Prop :=
  id ∈ m.parameterIds ∨ ∃ l ∈ m.lookups, l.target = some id ∧ ∃ owner x,
    l.owner.target = some owner ∧ g.findProperty owner l.property = .ok x ∧
      (g.classOf? x).isSome = true

/-- A slot that can be named has the id along `μ`, in the mapping or in one that it includes. -/
def Offers (μ : Path → Path) (g : Graph) (h : Handle) (id : String) : Prop :=
  ∃ k ∈ g.sources h, ∃ m, g.mapping? k = some m ∧ ∃ i ∈ m.named, (m.idsAlong μ)[i]? = some id

/-- With ids formed along `μ` no mapping has an id twice, and each has those that it asks for. -/
def IdsMatch (μ : Path → Path) (g : Graph) : Prop :=
  ∀ h e m, g.LiveAt h e → e.body = .mapping m →
    (m.idsAlong μ).Nodup ∧ ∀ id, g.Asks m id → g.Offers μ h id

/-- The graph as if its elements had come in the order of the paths to which `μ` takes them. -/
def inOrder (μ : Path → Path) (g : Graph) : Graph :=
  { g with roster := g.roster.mergeSort fun a b => (μ (g.pathOf a.2)).text ≤ (μ (g.pathOf b.2)).text }

def LooksUpAll (g : Graph) (m : Mapping) : Prop :=
  ∀ l ∈ m.lookups, ∀ owner, l.owner.target = some owner → ∃ x, g.findProperty owner l.property = .ok x

section Faults

variable {h : Handle} {m : Mapping}

theorem producer_ok_iff {p : PropertyMapping} : (∃ o, g.producer h p = .ok o) ↔
    ∀ l, p.lookup? = some l → ∀ owner, l.owner.target = some owner →
      ∃ x, g.findProperty owner l.property = .ok x ∧ ((g.classOf? x).isSome = true →
        ∀ id, l.target = some id → ∃ s, g.classMappingById h id = .ok s) := by
  rw [producer, PropertyMapping.lookup?]
  cases p.embedded? with
  | some index => simp
  | none =>
    cases ho : p.owner.target with
    | none => simp [ho]
    | some owner =>
      simp only [Option.some.injEq, forall_eq', ho]
      cases g.findProperty owner p.property with
      | error fault => simp [error_bind]
      | ok x =>
        simp only [ok_bind, Except.ok.injEq, exists_eq_left']
        cases g.classOf? x with
        | none => simp [pure, Except.pure]
        | some c =>
          cases p.target.filter fun id => !id.isEmpty with
          | none => simp [pure, Except.pure]
          | some id =>
            cases hs : g.classMappingById h id with
            | error fault => simp [hs]
            | ok s => simp [hs, pure, Except.pure]

theorem wireFaults_eq_nil_iff (hm : g.mapping? h = some m) : g.wireFaults h = [] ↔
    g.LooksUpAll m ∧ ∀ id, g.Asks m id → ∃ s, g.classMappingById h id = .ok s := by
  constructor
  · intro hf
    have hproperty : ∀ l ∈ m.lookups, ∀ owner, l.owner.target = some owner →
        ∃ x, g.findProperty owner l.property = .ok x ∧ ((g.classOf? x).isSome = true →
          ∀ id, l.target = some id → ∃ s, g.classMappingById h id = .ok s) := by
      intro l hl
      obtain ⟨s, hs, hl⟩ := List.mem_flatMap.mp hl
      obtain ⟨p, hp, hl⟩ := List.mem_filterMap.mp hl
      exact producer_ok_iff.mp ((exists_of_wireFaults hm hf hs).2 p hp) l hl
    refine ⟨fun l hl owner ho => ?_, fun id hid => ?_⟩
    · obtain ⟨x, hx, -⟩ := hproperty l hl owner ho
      exact ⟨x, hx⟩
    · rcases hid with hid | ⟨l, hl, htarget, owner, x, ho, hx, hc⟩
      · obtain ⟨s, hs, hid⟩ := List.mem_flatMap.mp hid
        obtain ⟨p, hp, rfl⟩ := List.mem_map.mp hid
        exact (exists_of_wireFaults hm hf hs).1 p hp
      · obtain ⟨y, hy, hfound⟩ := hproperty l hl owner ho
        obtain rfl := Except.ok.inj (hy.symm.trans hx)
        exact hfound hc id htarget
  · rintro ⟨hlookups, hids⟩
    refine List.eq_nil_iff_forall_not_mem.mpr fun fault hfault => ?_
    obtain ⟨n, hn, s, hs, hfault⟩ := mem_wireFaults.mp hfault
    obtain rfl := Option.some.inj (hn.symm.trans hm)
    rcases hfault with ⟨p, hp, hfault⟩ | ⟨p, hp, hfault⟩
    · obtain ⟨t, ht⟩ := hids p.id (.inl (List.mem_flatMap.mpr ⟨s, hs, List.mem_map_of_mem hp⟩))
      rw [ht] at hfault
      cases hfault
    · obtain ⟨o, ho⟩ : ∃ o, g.producer h p = .ok o := by
        refine producer_ok_iff.mpr fun l hl owner howner => ?_
        have hmem : l ∈ n.lookups :=
          List.mem_flatMap.mpr ⟨s, hs, List.mem_filterMap.mpr ⟨p, hp, hl⟩⟩
        obtain ⟨x, hx⟩ := hlookups l hmem owner howner
        exact ⟨x, hx, fun hc id hid => hids id (.inr ⟨l, hmem, hid, owner, x, howner, hx, hc⟩)⟩
      rw [ho] at hfault
      cases hfault

theorem repeated_eq_nil_iff {ids : List String} : repeated [] ids = [] ↔ ids.Nodup := by
  refine ⟨nodup_of_repeated, fun hn => List.eq_nil_iff_forall_not_mem.mpr fun id hid => ?_⟩
  rcases mem_repeated.mp hid with hid | ⟨hid, -⟩
  · exact List.nodup_iff_forall_not_duplicate.mp hn id hid
  · exact absurd hid List.not_mem_nil

end Faults

theorem lookups_of_outline {n n' : Mapping} (ho : n'.outline = (n.rebind (carry μ φ)).outline) :
    n'.lookups = n.lookups.map fun l => { l with owner := carry μ φ _ l.owner } := by
  rw [← n'.lookups_outline, ho, Mapping.lookups_outline, Mapping.lookups_rebind]

namespace Mirrors

variable (m : Mirrors μ φ g g') {h : Handle} {id : String}
include m

theorem exists_mapping?_image {n : Mapping} (hn : g.mapping? h = some n) :
    ∃ n', g'.mapping? (φ h) = some n' ∧ n'.outline = (n.rebind (carry μ φ)).outline := by
  have hm := m.mapping? h
  rw [hn, Option.map_some] at hm
  exact Option.map_eq_some_iff.mp hm

theorem looksUpAll (ro : g.Rostered) (ro' : g'.Rostered) {n n' : Mapping}
    (ho : n'.outline = (n.rebind (carry μ φ)).outline) (hn : g.LooksUpAll n) :
    g'.LooksUpAll n' := by
  intro l' hl' owner' howner'
  rw [lookups_of_outline ho] at hl'
  obtain ⟨l, hl, rfl⟩ := List.mem_map.mp hl'
  obtain ⟨owner, howner, rfl⟩ := Option.map_eq_some_iff.mp howner'
  obtain ⟨x, hx⟩ := hn l hl owner howner
  obtain ⟨x', hx', -⟩ := m.findProperty (tells_isSome _)
    (m.isSome_associationProperty ro ro') hx
  exact ⟨x', hx'⟩

theorem asks_iff (ho : g'.handles .association = (g.handles .association).map φ) {n n' : Mapping}
    (hn : n'.outline = (n.rebind (carry μ φ)).outline) : g'.Asks n' id ↔ g.Asks n id := by
  have hyields : ∀ owner name,
      (∃ x', g'.findProperty (φ owner) name = .ok x' ∧ (g'.classOf? x').isSome = true) ↔
        ∃ x, g.findProperty owner name = .ok x ∧ (g.classOf? x).isSome = true := by
    intro owner name
    have hends : ∀ k, g'.associationProperty (φ k) name =
        (g.associationProperty k name).map (Property.rebind (carry μ φ)) :=
      m.associationProperty_rebind ho
    have hr := m.toOption_findProperty (tells_rebind _) hends owner
    cases hf : g.findProperty owner name <;> cases hf' : g'.findProperty (φ owner) name <;>
      simp only [hf, hf', Except.toOption, Option.map_some, Option.map_none, reduceCtorEq,
        Option.some.injEq] at hr
    · simp
    · simp [hr, m.classOf?]
  have hparameters : n'.parameterIds = n.parameterIds := by
    rw [← n'.parameterIds_outline, hn, Mapping.parameterIds_outline, Mapping.parameterIds_rebind]
  rw [Asks, Asks, hparameters, lookups_of_outline hn]
  refine or_congr_right ?_
  simp only [List.mem_map, exists_exists_and_eq_and]
  refine exists_congr fun l => and_congr_right fun _ => and_congr_right fun _ => ?_
  cases ht : l.owner.target with
  | none => simp [carry, ht]
  | some owner => simpa [carry, ht] using hyields owner l.property

variable (hids : ∀ k, (g'.mapping? (φ k)).map Mapping.ids = (g.mapping? k).map (·.idsAlong μ))
include hids

theorem classMappingById_iff : (∃ s, g'.classMappingById (φ h) id = .ok s) ↔ g.Offers μ h id := by
  have hnamed : ∀ {n n' : Mapping}, n'.outline = (n.rebind (carry μ φ)).outline →
      n'.named = n.named := fun {n n'} ho => by
    rw [← n'.named_outline, ho, Mapping.named_outline, Mapping.named_rebind]
  have hids' : ∀ {k n n'}, g.mapping? k = some n → g'.mapping? (φ k) = some n' →
      n'.ids = n.idsAlong μ := by
    intro k n n' hn hn'
    have hi := hids k
    rwa [hn, hn', Option.map_some, Option.map_some, Option.some.injEq] at hi
  rw [exists_classMappingById, m.sources]
  constructor
  · rintro ⟨k', hk', n', hn', i, hi, hid⟩
    obtain ⟨k, hk, rfl⟩ := List.mem_map.mp hk'
    obtain ⟨n, hn, ho⟩ := m.exists_mapping? hn'
    exact ⟨k, hk, n, hn, i, hnamed ho ▸ hi, hids' hn hn' ▸ hid⟩
  · rintro ⟨k, hk, n, hn, i, hi, hid⟩
    obtain ⟨n', hn', ho⟩ := m.exists_mapping?_image hn
    exact ⟨φ k, List.mem_map_of_mem hk, n', hn', i, hnamed ho ▸ hi, (hids' hn hn').symm ▸ hid⟩

/-- Nothing is wrong with the wiring of a mirror whose properties are found exactly if ids match in
the graph. -/
theorem allWiringFaults_eq_nil_iff
    (ho : g'.handles .association = (g.handles .association).map φ) (ro' : g'.Rostered)
    (hfound : ∀ k n', g'.mapping? k = some n' → g'.LooksUpAll n') :
    g'.allWiringFaults = [] ↔ g.IdsMatch μ := by
  rw [allWiringFaults_eq_nil ro']
  have hat : ∀ {k n n'}, g.mapping? k = some n → g'.mapping? (φ k) = some n' →
      n'.outline = (n.rebind (carry μ φ)).outline →
      ((repeated [] n'.ids = [] ∧ g'.wireFaults (φ k) = []) ↔
        (n.idsAlong μ).Nodup ∧ ∀ id, g.Asks n id → g.Offers μ k id) := by
    intro k n n' hn hn' hout
    have hi := hids k
    rw [hn, hn', Option.map_some, Option.map_some, Option.some.injEq] at hi
    rw [repeated_eq_nil_iff, hi, wireFaults_eq_nil_iff hn']
    refine and_congr_right fun _ => ⟨?_, ?_⟩
    · rintro ⟨-, hask⟩ id hid
      exact (m.classMappingById_iff hids).mp (hask id ((m.asks_iff ho hout).mpr hid))
    · intro hask
      exact ⟨hfound _ n' hn', fun id hid =>
        (m.classMappingById_iff hids).mpr (hask id ((m.asks_iff ho hout).mp hid))⟩
  constructor
  · intro hf k e n hl hb
    have hn := mapping?_of_live hl hb
    obtain ⟨n', hn', hout⟩ := m.exists_mapping?_image hn
    obtain ⟨e', hl', -⟩ := m.liveAt hl
    have hm : e'.body.mapping? = some n' := by
      rwa [mapping?_eq, body?, hl'.1, Option.map_some, Option.bind_some] at hn'
    exact (hat hn hn' hout).mp (hf _ e' n' hl' (Body.eq_mapping hm))
  · intro hmatch k' e' n' hl' hb'
    obtain ⟨k, e, n, rfl, hl, hb⟩ := m.exists_liveAt_mapping hl' hb'
    have hn := mapping?_of_live hl hb
    obtain ⟨n₀, hn₀, hout⟩ := m.exists_mapping? (mapping?_of_live hl' hb')
    obtain rfl := Option.some.inj (hn₀.symm.trans hn)
    exact (hat hn (mapping?_of_live hl' hb') hout).mpr (hmatch k e n₀ hl hb)

end Mirrors
end Graph
end ModelGraph
