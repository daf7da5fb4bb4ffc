import ModelGraph.Proofs.MirroredProperties

namespace ModelGraph

def Mapping.ids (m : Mapping) : List String := m.slots.map (·.id.value)

section Slots

variable {f : Rebinding} {m m' : Mapping} {s s' : SetImplementation}

theorem exists_slot (h : m'.outline = (m.rebind f).outline) (hs : s' ∈ m'.slots) :
    ∃ s ∈ m.slots, s'.anonymous = (s.rebind f).anonymous := by
  have hmem : s'.anonymous ∈ m'.outline.slots := List.mem_map_of_mem hs
  rw [h, Mapping.outline, Mapping.rebind] at hmem
  obtain ⟨t, ht, hu⟩ := List.mem_map.mp hmem
  obtain ⟨s, hs, rfl⟩ := List.mem_map.mp ht
  exact ⟨s, hs, hu.symm⟩

theorem exists_property {p' : PropertyMapping} (h : s'.anonymous = (s.rebind f).anonymous)
    (hp : p' ∈ s'.properties) : ∃ p ∈ s.properties,
      { p' with producer := none } = { p.rebind f with producer := none } := by
  have hmem : { p' with producer := none } ∈ s'.anonymous.properties := by
    rw [SetImplementation.properties_anonymous]
    exact List.mem_map_of_mem hp
  rw [h, SetImplementation.properties_anonymous, SetImplementation.properties_rebind] at hmem
  obtain ⟨q, hq, hu⟩ := List.mem_map.mp hmem
  obtain ⟨p, hp, rfl⟩ := List.mem_map.mp hq
  exact ⟨p, hp, hu.symm⟩

theorem exists_parameter {p' : OperationParameter} (h : s'.anonymous = (s.rebind f).anonymous)
    (hp : p' ∈ s'.parameters) : ∃ p ∈ s.parameters, p'.id = p.id := by
  have hmem : { p' with producer := none } ∈ s'.anonymous.parameters := by
    rw [SetImplementation.parameters_anonymous]
    exact List.mem_map_of_mem hp
  rw [h, SetImplementation.parameters_anonymous, SetImplementation.parameters_rebind] at hmem
  obtain ⟨p, hp, hu⟩ := List.mem_map.mp hmem
  exact ⟨p, hp, (congrArg OperationParameter.id hu).symm⟩

theorem embedded?_of_anonymous {p p' : PropertyMapping}
    (h : { p' with producer := none } = { p.rebind f with producer := none }) :
    p'.embedded? = p.embedded? := by
  have hk := congrArg PropertyMapping.embedded? h
  simp only [PropertyMapping.embedded?, PropertyMapping.rebind] at hk
  rw [PropertyMapping.embedded?, PropertyMapping.embedded?, hk]
  cases p.kind <;> rfl

end Slots

namespace Graph

variable {g : Graph} {h : Handle} {p : PropertyMapping} {fault : GraphError}

theorem code_of_classMappingById {id : String} (hf : g.classMappingById h id = .error fault) :
    DiagnosticCode.ofError? fault = some .classMappingNotFound := by
  rw [classMappingById] at hf
  split at hf
  · cases hf
  · cases hf
    rfl

theorem findProperty_of_producer {o : Option SetHandle} {owner : Handle}
    (hp : g.producer h p = .ok o) (he : p.embedded? = none) (ho : p.owner.target = some owner) :
    ∃ q, g.findProperty owner p.property = .ok q := by
  rw [producer, he, ho] at hp
  obtain ⟨q, hq, -⟩ := bind_eq_ok.mp hp
  exact ⟨q, hq⟩

/-- Where its property is found, nothing but the class mapping of a property mapping can be
missing. -/
theorem code_of_producer (hf : g.producer h p = .error fault)
    (hp : ∀ owner, p.embedded? = none → p.owner.target = some owner →
      ∃ q, g.findProperty owner p.property = .ok q) :
    DiagnosticCode.ofError? fault = some .classMappingNotFound := by
  rw [producer] at hf
  cases he : p.embedded? with
  | some index =>
    rw [he] at hf
    cases hf
  | none =>
    cases ho : p.owner.target with
    | none =>
      rw [he, ho] at hf
      cases hf
    | some owner =>
      obtain ⟨q, hq⟩ := hp owner he ho
      rw [he, ho] at hf
      simp only [hq, ok_bind] at hf
      split at hf
      · cases hf
      · cases bind_eq_error.mp hf with
        | inl hf => exact code_of_classMappingById hf
        | inr hf =>
          obtain ⟨s, -, hf⟩ := hf
          cases hf
      · cases hf

theorem fault?_eq_some {α : Type} {x : Except GraphError α} : fault? x = some fault ↔ x = .error fault := by
  cases x <;> simp [fault?]

theorem mem_wireFaults : fault ∈ g.wireFaults h ↔ ∃ m, g.mapping? h = some m ∧ ∃ s ∈ m.slots,
    (∃ p ∈ s.parameters, g.classMappingById h p.id = .error fault) ∨
      ∃ p ∈ s.properties, g.producer h p = .error fault := by
  rw [wireFaults]
  cases g.mapping? h with
  | none => simp
  | some m => simp [fault?_eq_some]

theorem exists_of_wireFaults {m : Mapping} (hm : g.mapping? h = some m) (hf : g.wireFaults h = [])
    {s : SetImplementation} (hs : s ∈ m.slots) :
    (∀ p ∈ s.parameters, ∃ t, g.classMappingById h p.id = .ok t) ∧
      ∀ p ∈ s.properties, ∃ o, g.producer h p = .ok o := by
  have hnone : ∀ fault, fault ∉ g.wireFaults h := fun fault => hf ▸ List.not_mem_nil
  constructor
  · intro p hp
    cases ht : g.classMappingById h p.id with
    | ok t => exact ⟨t, rfl⟩
    | error fault => exact absurd (mem_wireFaults.mpr ⟨m, hm, s, hs, .inl ⟨p, hp, ht⟩⟩) (hnone fault)
  · intro p hp
    cases ho : g.producer h p with
    | ok o => exact ⟨o, rfl⟩
    | error fault => exact absurd (mem_wireFaults.mpr ⟨m, hm, s, hs, .inr ⟨p, hp, ho⟩⟩) (hnone fault)

theorem mapping?_of_live {e : Element} {m : Mapping} (hl : g.LiveAt h e)
    (hb : e.body = .mapping m) : g.mapping? h = some m := by
  rw [mapping?, body?, hl.1, Option.map_some, hb]

/-- What is wrong with the wiring is an id that is used twice in a mapping, or what is missing in
one. -/
theorem mem_allWiringFaults (ro : g.Rostered) {d : Diagnostic} (hd : d ∈ g.allWiringFaults) :
    ∃ k e m, g.LiveAt k e ∧ e.body = .mapping m ∧
      (repeated [] m.ids ≠ [] ∧ d.code = some .duplicateClassMappingId ∨
        ∃ fault ∈ g.wireFaults k, d.code = DiagnosticCode.ofError? fault) := by
  obtain ⟨⟨k, e⟩, hm, hd⟩ := List.mem_flatMap.mp hd
  obtain ⟨hl, -⟩ := (mem_ofKind ro).mp hm
  cases hb : e.body with
  | mapping m =>
    simp only [wiringFaults, hb] at hd
    refine ⟨k, e, m, hl, hb, ?_⟩
    rcases List.mem_append.mp hd with hd | hd
    · obtain ⟨id, hid, rfl⟩ := List.mem_map.mp hd
      exact .inl ⟨List.ne_nil_of_mem hid, rfl⟩
    · obtain ⟨fault, hf, rfl⟩ := List.mem_map.mp hd
      exact .inr ⟨fault, hf, rfl⟩
  | _ =>
    simp only [wiringFaults, hb, List.not_mem_nil] at hd

theorem allWiringFaults_eq_nil (ro : g.Rostered) : g.allWiringFaults = [] ↔
    ∀ k e m, g.LiveAt k e → e.body = .mapping m → repeated [] m.ids = [] ∧ g.wireFaults k = [] := by
  constructor
  · intro hf k e m hl hb
    have hkind : e.kind = .mapping := congrArg Body.kind hb
    have hk := List.flatMap_eq_nil_iff.mp hf (k, e) ((mem_ofKind ro).mpr ⟨hl, hkind⟩)
    simp only [wiringFaults, hb, List.append_eq_nil_iff, List.map_eq_nil_iff] at hk
    exact hk
  · intro hk
    refine List.eq_nil_iff_forall_not_mem.mpr fun d hd => ?_
    obtain ⟨k, e, m, hl, hb, hd⟩ := mem_allWiringFaults ro hd
    obtain ⟨hids, hf⟩ := hk k e m hl hb
    rcases hd with ⟨hne, -⟩ | ⟨fault, hfault, -⟩
    · exact hne hids
    · rw [hf] at hfault
      cases hfault

namespace Mirrors

variable {μ : Path → Path} {φ : Handle → Handle} {g' : Graph} (m : Mirrors μ φ g g')
include m

theorem mapping? (k : Handle) : (g'.mapping? (φ k)).map Mapping.outline =
    (g.mapping? k).map fun n => (n.rebind (carry μ φ)).outline := by
  have ho := m.outlines Body.mapping? k
  simp only [Body.mapping?_outline, Body.mapping?_rebind, Option.map_map] at ho
  rw [mapping?_eq, mapping?_eq, Option.map_bind, Option.map_bind]
  exact ho

theorem exists_mapping? {k : Handle} {n' : Mapping} (hn' : g'.mapping? (φ k) = some n') :
    ∃ n, g.mapping? k = some n ∧ n'.outline = (n.rebind (carry μ φ)).outline := by
  have hm := m.mapping? k
  rw [hn', Option.map_some] at hm
  obtain ⟨n, hn, ho⟩ := Option.map_eq_some_iff.mp hm.symm
  exact ⟨n, hn, ho.symm⟩

theorem exists_liveAt_mapping {k' : Handle} {e' : Element} {n' : Mapping} (hl' : g'.LiveAt k' e')
    (hb' : e'.body = .mapping n') :
    ∃ k e n, φ k = k' ∧ g.LiveAt k e ∧ e.body = .mapping n := by
  obtain ⟨k, e, hk, hl, ho⟩ := m.liveAt_back hl'
  have hkind := Body.kind_of_outline ho
  rw [Body.kind_rebind, hb'] at hkind
  cases hb : e.body with
  | mapping n => exact ⟨k, e, n, hk, hl, hb⟩
  | _ =>
    rw [hb] at hkind
    cases hkind

variable {R : Option Property → Option Property → Prop} (t : Tells (carry μ φ) R)
  (ha : ∀ name h, R (g.associationProperty h name) (g'.associationProperty (φ h) name))
include t ha

/-- A property mapping in the mirror has a property if the one of which it is made has, and these
belong together. -/
theorem findProperty_of_rebind {q q' : PropertyMapping}
    (hq : { q' with producer := none } = { q.rebind (carry μ φ) with producer := none })
    {o : Option SetHandle} (hp : g.producer h q = .ok o) {owner' : Handle}
    (he' : q'.embedded? = none) (ho' : q'.owner.target = some owner') :
    ∃ owner x x', q.owner.target = some owner ∧ owner' = φ owner ∧
      g.findProperty owner q.property = .ok x ∧ g'.findProperty owner' q'.property = .ok x' ∧
      R (some x) (some x') := by
  have howner : q'.owner = carry μ φ _ q.owner := congrArg PropertyMapping.owner hq
  have hname := congrArg PropertyMapping.property hq
  change q'.property = q.property at hname
  rw [embedded?_of_anonymous hq] at he'
  rw [howner, carry] at ho'
  obtain ⟨owner, ho, rfl⟩ := Option.map_eq_some_iff.mp ho'
  obtain ⟨x, hx⟩ := findProperty_of_producer hp he' ho
  obtain ⟨x', hx', hr⟩ := m.findProperty t (ha q.property) hx
  exact ⟨owner, x, x', ho, rfl, hx, hname ▸ hx', hr⟩

/-- Nothing but class mappings is missing in the mirror of a graph in which nothing is missing. -/
theorem code_of_wireFaults {k : Handle} (hf : g.wireFaults k = [])
    (hfault : fault ∈ g'.wireFaults (φ k)) :
    DiagnosticCode.ofError? fault = some .classMappingNotFound := by
  obtain ⟨n', hn', s', hs', hfault⟩ := mem_wireFaults.mp hfault
  obtain ⟨n, hn, ho⟩ := m.exists_mapping? hn'
  obtain ⟨s, hs, hslot⟩ := exists_slot ho hs'
  rcases hfault with ⟨p', -, hfault⟩ | ⟨q', hq', hfault⟩
  · exact code_of_classMappingById hfault
  · obtain ⟨q, hq, hqq⟩ := exists_property hslot hq'
    obtain ⟨o, hproducer⟩ := (exists_of_wireFaults hn hf hs).2 q hq
    refine code_of_producer hfault fun owner' he' ho' => ?_
    obtain ⟨-, -, x', -, -, -, hx', -⟩ := m.findProperty_of_rebind t ha hqq hproducer he' ho'
    exact ⟨x', hx'⟩

end Mirrors

/-- A mirror with the ids of class mappings unchanged. -/
structure Copies (μ : Path → Path) (φ : Handle → Handle) (g g' : Graph) : Prop
    extends Mirrors μ φ g g' where
  ids : ∀ k, (g'.mapping? (φ k)).map Mapping.ids = (g.mapping? k).map Mapping.ids

section Reports

variable {μ : Path → Path} {φ : Handle → Handle} {g' : Graph} {d : Diagnostic}

theorem Mirrors.mem_allWiringFaults (m : Mirrors μ φ g g') (ro : g.Rostered) (ro' : g'.Rostered)
    (hf : g.allWiringFaults = []) (hd : d ∈ g'.allWiringFaults) : ∃ k n n',
    g.mapping? k = some n ∧ g'.mapping? (φ k) = some n' ∧ repeated [] n.ids = [] ∧
      (repeated [] n'.ids ≠ [] ∧ d.code = some .duplicateClassMappingId ∨
        d.code = some .classMappingNotFound) := by
  obtain ⟨k', e', n', hl', hb', hd⟩ := Graph.mem_allWiringFaults ro' hd
  obtain ⟨k, e, n, rfl, hl, hb⟩ := m.exists_liveAt_mapping hl' hb'
  obtain ⟨hids, hwire⟩ := (allWiringFaults_eq_nil ro).mp hf k e n hl hb
  refine ⟨k, n, n', mapping?_of_live hl hb, mapping?_of_live hl' hb', hids, hd.imp_right ?_⟩
  rintro ⟨fault, hfault, hcode⟩
  exact hcode.trans (m.code_of_wireFaults (tells_isSome _)
    (fun _ => m.isSome_associationProperty ro ro') hwire hfault)

theorem Mirrors.code_of_allWiringFaults (m : Mirrors μ φ g g') (ro : g.Rostered)
    (ro' : g'.Rostered) (hf : g.allWiringFaults = []) (hd : d ∈ g'.allWiringFaults) :
    d.code = some .classMappingNotFound ∨ d.code = some .duplicateClassMappingId := by
  obtain ⟨_, _, _, -, -, -, hd⟩ := m.mem_allWiringFaults ro ro' hf hd
  rcases hd with ⟨-, hcode⟩ | hcode
  · exact .inr hcode
  · exact .inl hcode

theorem code_of_allWiringFaults (m : Copies μ φ g g') (ro : g.Rostered) (ro' : g'.Rostered)
    (hf : g.allWiringFaults = []) (hd : d ∈ g'.allWiringFaults) :
    d.code = some .classMappingNotFound := by
  obtain ⟨k, n, n', hn, hn', hids, hd⟩ := m.mem_allWiringFaults ro ro' hf hd
  refine hd.resolve_left ?_
  rintro ⟨hne, -⟩
  have hi := m.ids k
  rw [hn, hn', Option.map_some, Option.map_some, Option.some.injEq] at hi
  exact hne (hi ▸ hids)

end Reports

end Graph
end ModelGraph
