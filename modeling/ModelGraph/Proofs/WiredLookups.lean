import ModelGraph.Proofs.Counterparts
import ModelGraph.Proofs.MirroredIds

namespace ModelGraph

namespace SetImplementation

theorem slots_unwire (s : SetImplementation) : s.unwire.slots = s.slots := by
  rw [← s.slots_anonymous, ← s.anonymous_unwire, slots_anonymous]

end SetImplementation

namespace Mapping

theorem slots_map_unwire (m : Mapping) :
    m.unwire.slots.map SetImplementation.slots = m.slots.map SetImplementation.slots := by
  simp [unwire, SetImplementation.slots_unwire]

theorem named_unwire (m : Mapping) : m.unwire.named = m.named :=
  named_congr rfl m.slots_map_unwire

theorem ownClassMappings_unwire (m : Mapping) : m.unwire.ownClassMappings = m.ownClassMappings := by
  have hlength : m.unwire.slots.length = m.slots.length := List.length_map _
  simp only [ownClassMappings, hlength, collectEmbedded_congr m.slots_map_unwire]
  rfl

end Mapping

theorem Body.exists_mapping_of_unwire {b : Body} {m : Mapping} (h : b.unwire = .mapping m.unwire) :
    ∃ m', b = .mapping m' ∧ m'.unwire = m.unwire := by
  cases b with
  | mapping m' => exact ⟨m', rfl, Body.mapping.inj h⟩
  | _ => cases h

namespace Graph

def slotFaults (g : Graph) (h : Handle) (s : SetImplementation) : List GraphError :=
  (s.parameters.filterMap fun p => fault? (g.classMappingById h p.id)) ++
    s.properties.filterMap fun p => fault? (g.producer h p)

theorem slotFaults_unwire (g : Graph) (h : Handle) (s : SetImplementation) :
    g.slotFaults h s.unwire = g.slotFaults h s := by
  rw [slotFaults, s.parameters_unwire, s.properties_unwire, List.filterMap_map, List.filterMap_map]
  rfl

theorem wireFaults_eq (g : Graph) (h : Handle) :
    g.wireFaults h = ((g.mapping? h).map fun m => m.slots.flatMap (g.slotFaults h)).getD [] := by
  rw [wireFaults]
  cases g.mapping? h <;> rfl

def handlesOf (g : Graph) (slots : Mapping → List Nat) (h : Handle) : List SetHandle :=
  ((g.mapping? h).map slots).elim [] (·.map fun i => ⟨h, i⟩)

theorem ownClassMappings_eq (g : Graph) :
    g.ownClassMappings = g.handlesOf Mapping.ownClassMappings := by
  funext h
  rw [ownClassMappings, handlesOf]
  cases g.mapping? h <;> rfl

theorem namedClassMappings_eq (g : Graph) : g.namedClassMappings = g.handlesOf Mapping.named := by
  funext h
  rw [namedClassMappings, handlesOf]
  cases g.mapping? h <;> rfl

theorem mem_handlesOf {g : Graph} {slots : Mapping → List Nat} {h : Handle} {s : SetHandle} :
    s ∈ g.handlesOf slots h ↔ ∃ m, g.mapping? h = some m ∧ s.mapping = h ∧ s.index ∈ slots m := by
  rw [handlesOf]
  cases g.mapping? h with
  | none => simp
  | some m =>
    simp only [Option.map_some, Option.elim_some, List.mem_map, Option.some.injEq, exists_eq_left']
    constructor
    · rintro ⟨i, hi, rfl⟩
      exact ⟨rfl, hi⟩
    · rintro ⟨rfl, hi⟩
      exact ⟨s.index, hi, rfl⟩

namespace Keeps

variable {g g' : Graph} (k : Keeps Element.unwired g g')
include k

theorem body?_unwire (h : Handle) :
    (g'.body? h).map Body.unwire = (g.body? h).map Body.unwire := by
  have he := congrArg (Option.map Prod.snd) (k.element h)
  simp only [Option.map_map] at he
  rw [body?, body?, Option.map_map, Option.map_map]
  exact he

/-- The bodies are the same but for mappings, which are the same once nothing is wired. -/
theorem body?_eq_or (h : Handle) : g'.body? h = g.body? h ∨
    ∃ m m', g.body? h = some (.mapping m) ∧ g'.body? h = some (.mapping m') ∧
      m'.unwire = m.unwire := by
  have hb := k.body?_unwire h
  cases he : g.body? h with
  | none =>
    rw [he, Option.map_none, Option.map_eq_none_iff] at hb
    exact .inl hb
  | some b =>
    rw [he, Option.map_some, Option.map_eq_some_iff] at hb
    obtain ⟨b', hb', hu⟩ := hb
    rw [hb']
    cases b with
    | mapping m =>
      cases b' with
      | mapping m' => exact .inr ⟨m, m', rfl, rfl, Body.mapping.inj hu⟩
      | _ => cases hu
    | _ =>
      refine .inl (congrArg some ?_)
      cases b' <;> cases hu
      rfl

theorem isDeleted_eq (h : Handle) : g'.isDeleted h = g.isDeleted h := by
  have he := congrArg (Option.any fun x : (ElementPlace × Kind) × Body => x.1.1.deleted)
    (k.element h)
  rw [Option.any_map, Option.any_map] at he
  exact he

theorem fuel_eq : g'.fuel = g.fuel := congrArg Nat.succ k.size_eq

theorem mapping?_unwire (h : Handle) :
    (g'.mapping? h).map Mapping.unwire = (g.mapping? h).map Mapping.unwire := by
  rw [mapping?, mapping?]
  rcases k.body?_eq_or h with hb | ⟨m, m', hm, hm', hu⟩
  · rw [hb]
  · rw [hm, hm']
    exact congrArg some hu

theorem view_mapping {α : Type} (view : Mapping → α) (hv : ∀ m, view m.unwire = view m)
    (h : Handle) : (g'.mapping? h).map view = (g.mapping? h).map view := by
  have hm := congrArg (Option.map view) (k.mapping?_unwire h)
  simpa only [Option.map_map, Function.comp_def, hv] using hm

theorem includes_eq (h : Handle) : g'.includes h = g.includes h := by
  have hm := k.view_mapping (fun m => m.includes.filterMap Reference.target) (fun _ => rfl) h
  have hview : ∀ g : Graph, g.includes h =
      ((g.mapping? h).map fun m => m.includes.filterMap Reference.target).getD [] := by
    intro g
    rw [includes]
    cases g.mapping? h <;> rfl
  rw [hview, hview, hm]

theorem collectIncludes_eq (fuel : Nat) : g'.collectIncludes fuel = g.collectIncludes fuel := by
  induction fuel with
  | zero => rfl
  | succ fuel ih =>
    funext h visited
    simp only [collectIncludes, k.includes_eq, k.isDeleted_eq, ih]

theorem sources_eq (h : Handle) : g'.sources h = g.sources h := by
  rw [sources, sources, includedMappings, includedMappings, k.fuel_eq, k.collectIncludes_eq]

theorem setImplementation?_unwire (s : SetHandle) :
    (g'.setImplementation? s).map SetImplementation.unwire =
      (g.setImplementation? s).map SetImplementation.unwire := by
  have hm := congrArg (Option.bind · fun m : Mapping => m.slots[s.index]?)
    (k.mapping?_unwire s.mapping)
  simpa only [Option.bind_map, Function.comp_def, Mapping.unwire, List.getElem?_map,
    setImplementation?, Option.map_bind] using hm

theorem any_setImplementation? (test : SetImplementation → Bool)
    (ht : ∀ s, test s.unwire = test s) (s : SetHandle) :
    (g'.setImplementation? s).any test = (g.setImplementation? s).any test := by
  have hs := congrArg (Option.any test) (k.setImplementation?_unwire s)
  simpa only [Option.any_map, Function.comp_def, ht] using hs

theorem handlesOf_eq {slots : Mapping → List Nat} (hs : ∀ m, slots m.unwire = slots m) :
    g'.handlesOf slots = g.handlesOf slots := by
  funext h
  rw [handlesOf, handlesOf, k.view_mapping slots hs]

theorem ownClassMappings_eq : g'.ownClassMappings = g.ownClassMappings := by
  rw [Graph.ownClassMappings_eq, Graph.ownClassMappings_eq,
    k.handlesOf_eq Mapping.ownClassMappings_unwire]

theorem namedClassMappings_eq : g'.namedClassMappings = g.namedClassMappings := by
  rw [Graph.namedClassMappings_eq, Graph.namedClassMappings_eq, k.handlesOf_eq Mapping.named_unwire]

theorem classMappingById_eq (h : Handle) : g'.classMappingById h = g.classMappingById h := by
  funext id
  have htest := k.any_setImplementation? (·.id.value == id) fun _ => rfl
  simp only [classMappingById, k.sources_eq, k.namedClassMappings_eq, htest, k.post.place.pathOf]

theorem classMappingsByClass_eq (h c : Handle) :
    g'.classMappingsByClass h c = g.classMappingsByClass h c := by
  have htest := k.any_setImplementation? (·.target.pointsTo c) fun _ => rfl
  have hmaps : g'.mapsClass c = g.mapsClass c := funext htest
  rw [classMappingsByClass, classMappingsByClass, allClassMappings, allClassMappings, k.sources_eq,
    k.ownClassMappings_eq, hmaps]

theorem defaultClassMapping_eq (h c : Handle) :
    g'.defaultClassMapping h c = g.defaultClassMapping h c := by
  have htest := k.any_setImplementation? (·.root) fun _ => rfl
  simp only [defaultClassMapping, k.classMappingsByClass_eq, htest]

theorem associationProperty_eq (h : Handle) (name : String) :
    g'.associationProperty h name = g.associationProperty h name := by
  have hbody : ∀ h, (g'.body? h).bind Body.association? = (g.body? h).bind Body.association? := by
    intro h
    rcases k.body?_eq_or h with hb | ⟨m, m', hm, hm', -⟩
    · rw [hb]
    · rw [hm, hm']
      rfl
  rw [Graph.associationProperty_eq h, Graph.associationProperty_eq h, handles, handles, k.roster]
  simp only [hbody]

theorem searchProperty_eq (name : String) (fuel : Nat) :
    g'.searchProperty name fuel = g.searchProperty name fuel := by
  induction fuel with
  | zero => rfl
  | succ fuel ih =>
    funext h visited
    rw [searchProperty, searchProperty]
    rcases k.body?_eq_or h with hb | ⟨m, m', hm, hm', -⟩
    · rw [hb, ih, k.associationProperty_eq]
    · rw [hm, hm']

theorem findProperty_eq (h : Handle) (name : String) :
    g'.findProperty h name = g.findProperty h name := by
  rw [findProperty, findProperty, k.fuel_eq, k.searchProperty_eq, k.post.place.pathOf]
  rcases k.body?_eq_or h with hb | ⟨m, m', hm, hm', -⟩
  · rw [hb]
  · rw [hm, hm']

theorem classOf?_eq (p : Property) : g'.classOf? p = g.classOf? p := by
  rw [classOf?, classOf?]
  refine congrArg (p.type.target.filter ·) (funext fun t => ?_)
  rcases k.body?_eq_or t with hb | ⟨m, m', hm, hm', -⟩
  · rw [hb]
  · rw [hm, hm']
    rfl

theorem producer_eq (h : Handle) (p : PropertyMapping) : g'.producer h p = g.producer h p := by
  simp only [producer, k.findProperty_eq, k.classOf?_eq, k.classMappingById_eq,
    k.defaultClassMapping_eq]

theorem wireSlot_eq (h : Handle) : g'.wireSlot h = g.wireSlot h := by
  have hp : g'.wireProperty h = g.wireProperty h := by
    funext p
    rw [wireProperty, wireProperty, k.producer_eq]
  have hk : g'.wireParameter h = g.wireParameter h := by
    funext p
    rw [wireParameter, wireParameter, k.classMappingById_eq]
  funext s
  rw [wireSlot, wireSlot, hp, hk]

theorem wireBody_eq (h : Handle) : g'.wireBody h = g.wireBody h := by
  funext b
  cases b with
  | mapping m => rw [wireBody, wireBody, k.wireSlot_eq]
  | _ => rfl

theorem wireFaults_eq (h : Handle) : g'.wireFaults h = g.wireFaults h := by
  have hslot : g'.slotFaults h = g.slotFaults h := by
    funext s
    simp only [slotFaults, k.classMappingById_eq, k.producer_eq]
  have hview : ∀ m : Mapping, m.unwire.slots.flatMap (g.slotFaults h) =
      m.slots.flatMap (g.slotFaults h) := by
    intro m
    rw [Mapping.unwire, List.flatMap_map]
    simp only [slotFaults_unwire]
  rw [Graph.wireFaults_eq, Graph.wireFaults_eq, hslot, k.view_mapping _ hview]

end Keeps
end Graph
end ModelGraph
