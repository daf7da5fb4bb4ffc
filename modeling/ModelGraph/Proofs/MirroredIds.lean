import ModelGraph.Proofs.MirroredWiring

namespace ModelGraph

namespace SetImplementation

def aggregation? (s : SetImplementation) : Option (Nat × List Aggregate) :=
  match s.kind with
  | .aggregationAware main aggregates _ => some (main, aggregates)
  | _ => none

/-- The slots to which a set implementation leads. -/
def slots (s : SetImplementation) : List Nat × Option (Nat × List Aggregate) :=
  (s.properties.filterMap PropertyMapping.embedded?, s.aggregation?)

theorem slots_anonymous (s : SetImplementation) : s.anonymous.slots = s.slots := by
  have he : ∀ p : PropertyMapping,
      PropertyMapping.embedded? { p with producer := none } = p.embedded? := fun _ => rfl
  rw [slots, slots, properties_anonymous, List.filterMap_map]
  simp only [Function.comp_def, he]
  cases hk : s.kind <;>
    simp [aggregation?, anonymous, unwire, mapProperties, mapParameters, hk]

theorem slots_rebind (f : Rebinding) (s : SetImplementation) : (s.rebind f).slots = s.slots := by
  have he : ∀ p : PropertyMapping, (p.rebind f).embedded? = p.embedded? := fun p => by
    cases hk : p.kind <;> simp [PropertyMapping.embedded?, PropertyMapping.rebind, hk]
  rw [slots, slots, properties_rebind, List.filterMap_map]
  simp only [Function.comp_def, he]
  cases hk : s.kind <;> simp [aggregation?, rebind, rebindKind, hk]

end SetImplementation

namespace Mapping

def named (m : Mapping) : List Nat := m.ownClassMappings ++ m.aggregationSlots

variable {m m' : Mapping}

theorem collectEmbedded_congr (h : m'.slots.map SetImplementation.slots =
    m.slots.map SetImplementation.slots) (fuel index : Nat) (found : List Nat) :
    m'.collectEmbedded fuel index found = m.collectEmbedded fuel index found := by
  induction fuel generalizing index found with
  | zero => rfl
  | succ fuel ih =>
    have hi := congrArg (fun ss => ss[index]?) h
    simp only [List.getElem?_map] at hi
    rw [collectEmbedded, collectEmbedded]
    cases hs : m.slots[index]? with
    | none =>
      rw [hs, Option.map_none, Option.map_eq_none_iff] at hi
      simp only [hi]
    | some s =>
      rw [hs, Option.map_some] at hi
      obtain ⟨s', hs', he⟩ := Option.map_eq_some_iff.mp hi
      have hembedded := congrArg Prod.fst he
      simp only [SetImplementation.slots] at hembedded
      simp only [hs', hembedded, ih]

theorem aggregations_eq (m : Mapping) : m.aggregations =
    m.top.filterMap fun i => (m.slots[i]?.map SetImplementation.slots).bind Prod.snd := by
  rw [aggregations, topMappings, List.filterMap_filterMap]
  refine congrArg (fun f => m.top.filterMap f) (funext fun i => ?_)
  cases m.slots[i]? with
  | none => rfl
  | some s =>
    obtain ⟨id, target, root, kind⟩ := s
    cases kind <;> rfl

theorem named_congr (ht : m'.top = m.top)
    (h : m'.slots.map SetImplementation.slots = m.slots.map SetImplementation.slots) :
    m'.named = m.named := by
  have hlength : m'.slots.length = m.slots.length := by simpa using congrArg List.length h
  have haggregations : m'.aggregations = m.aggregations := by
    simp only [aggregations_eq, ← List.getElem?_map, ht, h]
  simp only [named, ownClassMappings, aggregationSlots, ht, hlength, haggregations,
    collectEmbedded_congr h]

theorem named_outline (m : Mapping) : m.outline.named = m.named := by
  refine named_congr rfl ?_
  simp [outline, SetImplementation.slots_anonymous]

theorem named_rebind (f : Rebinding) (m : Mapping) : (m.rebind f).named = m.named := by
  refine named_congr rfl ?_
  simp [rebind, SetImplementation.slots_rebind]

end Mapping

namespace Graph

variable {g : Graph} {h : Handle} {id : String}

theorem exists_classMappingById : (∃ s, g.classMappingById h id = .ok s) ↔
    ∃ k ∈ g.sources h, ∃ m, g.mapping? k = some m ∧ ∃ i ∈ m.named, m.ids[i]? = some id := by
  have hfound : (∃ s, g.classMappingById h id = .ok s) ↔
      ∃ s ∈ (g.sources h).flatMap g.namedClassMappings,
        (g.setImplementation? s).any (·.id.value == id) = true := by
    rw [classMappingById, ← List.find?_isSome]
    split
    · next s hs => simp [hs]
    · next hs => simp [hs]
  have hnamed : ∀ k s, s ∈ g.namedClassMappings k ↔
      ∃ m, g.mapping? k = some m ∧ ∃ i ∈ m.named, ⟨k, i⟩ = s := by
    intro k s
    rw [namedClassMappings]
    cases g.mapping? k with
    | none => simp
    | some m => simp only [List.mem_map, Option.some.injEq, exists_eq_left', Mapping.named]
  have hid : ∀ {k m i}, g.mapping? k = some m →
      ((g.setImplementation? ⟨k, i⟩).any (·.id.value == id) = true ↔ m.ids[i]? = some id) := by
    intro k m i hm
    rw [setImplementation?, hm, Option.bind_some, Mapping.ids, List.getElem?_map]
    cases m.slots[i]? <;> simp
  rw [hfound]
  constructor
  · rintro ⟨s, hs, ha⟩
    obtain ⟨k, hk, hs⟩ := List.mem_flatMap.mp hs
    obtain ⟨m, hm, i, hi, rfl⟩ := (hnamed k s).mp hs
    exact ⟨k, hk, m, hm, i, hi, (hid hm).mp ha⟩
  · rintro ⟨k, hk, m, hm, i, hi, ha⟩
    exact ⟨⟨k, i⟩, List.mem_flatMap.mpr ⟨k, hk, (hnamed k _).mpr ⟨m, hm, i, hi, rfl⟩⟩,
      (hid hm).mpr ha⟩

variable {μ : Path → Path} {φ : Handle → Handle} {g' : Graph}

namespace Mirrors

variable (m : Mirrors μ φ g g')
include m

theorem includes (k : Handle) : g'.includes (φ k) = (g.includes k).map φ := by
  have hm := congrArg (Option.map Mapping.includes) (m.mapping? k)
  simp only [Option.map_map, Function.comp_def, Mapping.outline, Mapping.rebind] at hm
  rw [Graph.includes, Graph.includes]
  cases hn : g.mapping? k with
  | none =>
    rw [hn, Option.map_none, Option.map_eq_none_iff] at hm
    simp only [hm, List.map_nil]
  | some n =>
    rw [hn, Option.map_some] at hm
    obtain ⟨n', hn', hi⟩ := Option.map_eq_some_iff.mp hm
    simp only [hn', hi, List.filterMap_map, List.map_filterMap]
    rfl

theorem collectIncludes (fuel : Nat) (k : Handle) (visited : List Handle) :
    g'.collectIncludes fuel (φ k) (visited.map φ) =
      (g.collectIncludes fuel k visited).map φ := by
  induction fuel generalizing k visited with
  | zero => rfl
  | succ fuel ih =>
    rw [Graph.collectIncludes, Graph.collectIncludes, m.includes]
    induction g.includes k generalizing visited with
    | nil => rfl
    | cons t ts ihts =>
      rw [List.map_cons, List.foldl_cons, List.foldl_cons, m.contains_map, m.isDeleted]
      split
      · exact ihts visited
      · have happend : visited.map φ ++ [φ t] = (visited ++ [t]).map φ := by
          rw [List.map_append]
          rfl
        rw [happend, ih, ihts]

theorem sources (k : Handle) : g'.sources (φ k) = (g.sources k).map φ := by
  have hc := m.collectIncludes g.fuel k [k]
  rw [Graph.sources, Graph.sources, includedMappings, includedMappings, m.fuel_eq, List.map_cons,
    List.map_drop, ← hc]
  rfl

theorem classOf? (p : Property) :
    g'.classOf? (p.rebind (carry μ φ)) = (g.classOf? p).map φ := by
  have htype : (p.rebind (carry μ φ)).type.target = p.type.target.map φ := rfl
  rw [Graph.classOf?, Graph.classOf?, htype]
  cases p.type.target with
  | none => rfl
  | some t =>
    have hadmits : (g'.body? (φ t)).any (Family.admits .class) =
        (g.body? t).any (Family.admits .class) := by
      have ho := m.outlines (fun b => some (Family.class.admits b)) t
      simp only [Family.admits_outline, Family.admits_rebind] at ho
      cases hb : g.body? t <;> cases hb' : g'.body? (φ t) <;> simp_all
    rw [Option.map_some, Option.filter_some, Option.filter_some, hadmits]
    split <;> rfl

end Mirrors

namespace Copies

variable (c : Copies μ φ g g')
include c

theorem exists_classMappingById {k : Handle} (hs : ∃ s, g.classMappingById k id = .ok s) :
    ∃ s, g'.classMappingById (φ k) id = .ok s := by
  obtain ⟨t, ht, n, hn, i, hi, hid⟩ := Graph.exists_classMappingById.mp hs
  have hids := c.ids t
  have houtline := c.mapping? t
  rw [hn, Option.map_some] at hids houtline
  obtain ⟨n', hn', hids⟩ := Option.map_eq_some_iff.mp hids
  rw [hn', Option.map_some, Option.some.injEq] at houtline
  refine Graph.exists_classMappingById.mpr
    ⟨φ t, c.sources k ▸ List.mem_map_of_mem ht, n', hn', i, ?_, hids ▸ hid⟩
  rwa [← n'.named_outline, houtline, Mapping.named_outline, Mapping.named_rebind]

variable (ro : g.Rostered) (ro' : g'.Rostered)
include ro ro'

/-- A property mapping has what produces its values in a copy too, unless its property yields a class
there and does not in the graph. -/
theorem exists_producer {k : Handle} {q q' : PropertyMapping} {o : Option SetHandle}
    (hq : { q' with producer := none } = { q.rebind (carry μ φ) with producer := none })
    (hclass : ∀ owner x x', q.owner.target = some owner →
      (q.target.filter fun id => !id.isEmpty).isSome = true →
      g.findProperty owner q.property = .ok x → g'.findProperty (φ owner) q.property = .ok x' →
      (g'.classOf? x').isSome = true → (g.classOf? x).isSome = true)
    (hp : g.producer k q = .ok o) : ∃ o', g'.producer (φ k) q' = .ok o' := by
  rw [producer]
  cases he' : q'.embedded? with
  | some index => exact ⟨_, rfl⟩
  | none =>
    cases ho' : q'.owner.target with
    | none => exact ⟨_, rfl⟩
    | some owner' =>
      obtain ⟨owner, x, x', howner, rfl, hx, hx', -⟩ := c.findProperty_of_rebind (tells_isSome _)
        (fun _ => c.isSome_associationProperty ro ro') hq hp he' ho'
      have htarget := congrArg PropertyMapping.target hq
      change q'.target = q.target at htarget
      have hname := congrArg PropertyMapping.property hq
      change q'.property = q.property at hname
      have he : q.embedded? = none := (embedded?_of_anonymous hq).symm.trans he'
      rw [producer, he, howner] at hp
      simp only [hx, ok_bind] at hp
      simp only [hx', ok_bind, htarget]
      cases hc' : g'.classOf? x' with
      | none => exact ⟨_, rfl⟩
      | some d' =>
        cases ht : q.target.filter fun id => !id.isEmpty with
        | none => exact ⟨_, rfl⟩
        | some id =>
          obtain ⟨d, hc⟩ := Option.isSome_iff_exists.mp (hclass owner x x' howner
            (Option.isSome_of_eq_some ht) hx (hname ▸ hx') (Option.isSome_of_eq_some hc'))
          simp only [hc, ht] at hp
          obtain ⟨s, hs, -⟩ := bind_eq_ok.mp hp
          obtain ⟨s', hs'⟩ := c.exists_classMappingById ⟨s, hs⟩
          exact ⟨some s', by simp only [hs']; rfl⟩

/-- Nothing is wrong with the wiring of a copy of a graph in which nothing is wrong with it, unless
the property of a property mapping with a target yields a class there and does not in the graph. -/
theorem allWiringFaults_eq_nil_of_classes
    (hclass : ∀ k e n s q owner x x', g.LiveAt k e → e.body = .mapping n → s ∈ n.slots →
      q ∈ s.properties → q.owner.target = some owner →
      (q.target.filter fun id => !id.isEmpty).isSome = true →
      g.findProperty owner q.property = .ok x → g'.findProperty (φ owner) q.property = .ok x' →
      (g'.classOf? x').isSome = true → (g.classOf? x).isSome = true)
    (hf : g.allWiringFaults = []) : g'.allWiringFaults = [] := by
  rw [Graph.allWiringFaults_eq_nil ro']
  intro k' e' n' hl' hb'
  obtain ⟨k, e, n, rfl, hl, hb⟩ := c.exists_liveAt_mapping hl' hb'
  obtain ⟨hids, hwire⟩ := (Graph.allWiringFaults_eq_nil ro).mp hf k e n hl hb
  have hn := mapping?_of_live hl hb
  have hn' := mapping?_of_live hl' hb'
  have hi := c.ids k
  have houtline := c.mapping? k
  rw [hn, hn', Option.map_some, Option.map_some, Option.some.injEq] at hi houtline
  refine ⟨hi ▸ hids, List.eq_nil_iff_forall_not_mem.mpr fun fault hfault => ?_⟩
  obtain ⟨n'', hn'', s', hs', hfault⟩ := mem_wireFaults.mp hfault
  obtain rfl := Option.some.inj (hn''.symm.trans hn')
  obtain ⟨s, hs, hslot⟩ := exists_slot houtline hs'
  obtain ⟨hparameters, hproperties⟩ := exists_of_wireFaults hn hwire hs
  rcases hfault with ⟨p', hp', hfault⟩ | ⟨q', hq', hfault⟩
  · obtain ⟨p, hp, hid⟩ := exists_parameter hslot hp'
    obtain ⟨t, ht⟩ := c.exists_classMappingById (hparameters p hp)
    rw [hid, ht] at hfault
    cases hfault
  · obtain ⟨q, hq, hqq⟩ := exists_property hslot hq'
    obtain ⟨o, hproducer⟩ := hproperties q hq
    obtain ⟨o', ho'⟩ := c.exists_producer ro ro' hqq
      (fun owner x x' => hclass k e n s q owner x x' hl hb hs hq) hproducer
    rw [ho'] at hfault
    cases hfault

omit ro ro' in
theorem allWiringFaults_eq_nil (ho : g'.handles .association = (g.handles .association).map φ)
    (ro : g.Rostered) (ro' : g'.Rostered) (hf : g.allWiringFaults = []) :
    g'.allWiringFaults = [] := by
  refine c.allWiringFaults_eq_nil_of_classes ro ro' ?_ hf
  intro k e n s q owner x x' _ _ _ _ _ _ hx hx' hsome
  obtain ⟨p', hp', hr⟩ := c.findProperty (tells_rebind _) (c.associationProperty_rebind ho) hx
  obtain rfl := Except.ok.inj (hp'.symm.trans hx')
  obtain rfl := Option.some.inj hr
  rwa [c.classOf?, Option.isSome_map] at hsome

end Copies
end Graph
end ModelGraph
