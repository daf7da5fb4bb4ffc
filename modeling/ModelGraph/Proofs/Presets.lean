import ModelGraph.Extension.Presets
import ModelGraph.Proofs.Outcomes

namespace ModelGraph

namespace Registry

theorem stageKinds_eq_ok {r stage stage' : Registry} {kinds : List ElementKind}
    (h : r.stageKinds stage kinds = .ok stage') :
    stage' = { stage with kinds := stage.kinds ++ kinds } := by
  induction kinds generalizing stage with
  | nil =>
    rw [stageKinds] at h
    cases h
    simp
  | cons k kinds ih =>
    rw [stageKinds] at h
    obtain ⟨_, _, h⟩ := bind_eq_ok.mp h
    obtain ⟨staged, hs, h⟩ := bind_eq_ok.mp h
    unfold addKind at hs
    split at hs
    · cases hs
    · cases hs
      rw [ih h]
      simp

theorem stageMappings_eq_ok {r stage stage' : Registry} {mappings : List MappingKind}
    (h : r.stageMappings stage mappings = .ok stage') :
    stage' = { stage with mappings := stage.mappings ++ mappings } := by
  induction mappings generalizing stage with
  | nil =>
    rw [stageMappings] at h
    cases h
    simp
  | cons m mappings ih =>
    rw [stageMappings] at h
    obtain ⟨_, _, h⟩ := bind_eq_ok.mp h
    obtain ⟨staged, hs, h⟩ := bind_eq_ok.mp h
    unfold addMapping at hs
    split at hs
    · cases hs
    · cases hs
      rw [ih h]
      simp

theorem install_eq_ok {r r' : Registry} {p : Plugin} (h : r.install p = .ok r') :
    r' = {
      plugins := r.plugins ++ [p.name]
      kinds := r.kinds ++ p.kinds
      mappings := r.mappings ++ p.mappings
      cleaners := r.cleaners ++ p.cleaners } := by
  unfold install at h
  obtain ⟨_, h⟩ := check_eq_ok.mp h
  obtain ⟨stage, hk, h⟩ := bind_eq_ok.mp h
  obtain ⟨stage', hm, h⟩ := bind_eq_ok.mp h
  rw [← pure_eq_ok.mp h, stageMappings_eq_ok hm, stageKinds_eq_ok hk]
  rfl

theorem installAll_eq_ok {r r' : Registry} {ps : List Plugin} (h : r.installAll ps = .ok r') :
    r' = {
      plugins := r.plugins ++ ps.map Plugin.name
      kinds := r.kinds ++ ps.flatMap Plugin.kinds
      mappings := r.mappings ++ ps.flatMap Plugin.mappings
      cleaners := r.cleaners ++ ps.flatMap Plugin.cleaners } := by
  induction ps generalizing r with
  | nil =>
    cases h
    simp
  | cons p ps ih =>
    rw [installAll, List.foldlM_cons] at h
    obtain ⟨r₁, h₁, h⟩ := bind_eq_ok.mp h
    rw [ih h, install_eq_ok h₁]
    simp

end Registry

namespace Preset

variable {ps : List Preset} {r : Registry}

theorem kinds_registry (h : registry ps = .ok r) :
    r.kinds = ps.flatMap fun p => p.plugin.kinds := by
  rw [Registry.installAll_eq_ok h]
  simp [Registry.empty, List.flatMap_map]

theorem mappings_registry (h : registry ps = .ok r) :
    r.mappings = ps.flatMap fun p => p.plugin.mappings := by
  rw [Registry.installAll_eq_ok h]
  simp [Registry.empty, List.flatMap_map]

theorem cleaners_registry (h : registry ps = .ok r) :
    r.cleaners = ps.flatMap fun p => p.plugin.cleaners := by
  rw [Registry.installAll_eq_ok h]
  simp [Registry.empty, List.flatMap_map]

theorem mem_cleaners (h : registry ps = .ok r) {clean : Cleaner} (hc : clean ∈ r.cleaners) :
    clean = cleanDiagram ∨ clean = cleanSchema := by
  rw [cleaners_registry h, List.mem_flatMap] at hc
  obtain ⟨p, _, hp⟩ := hc
  cases p with
  | text | serviceStore => cases hp
  | diagram => exact .inl (List.mem_singleton.mp hp)
  | serializer => exact .inr (List.mem_singleton.mp hp)

theorem mem_kinds (h : registry ps = .ok r) {k : ElementKind} (hk : k ∈ r.kinds) :
    k = textKind ∨ k = diagramKind ∨ k = serviceStoreKind ∨ k = schemaKind := by
  rw [kinds_registry h, List.mem_flatMap] at hk
  obtain ⟨p, _, hp⟩ := hk
  cases p with
  | text => exact .inl (List.mem_singleton.mp hp)
  | diagram => exact .inr (.inl (List.mem_singleton.mp hp))
  | serviceStore => exact .inr (.inr (.inl (List.mem_singleton.mp hp)))
  | serializer => exact .inr (.inr (.inr (List.mem_singleton.mp hp)))

theorem mem_mappings (h : registry ps = .ok r) {k : MappingKind} (hk : k ∈ r.mappings) :
    k = serviceMappingKind := by
  rw [mappings_registry h, List.mem_flatMap] at hk
  obtain ⟨p, _, hp⟩ := hk
  cases p with
  | serviceStore => exact List.mem_singleton.mp hp
  | text | diagram | serializer => cases hp

theorem kind?_tag (h : registry ps = .ok r) {k : ElementKind} (hk : k ∈ r.kinds) :
    r.kind? k.tag = some k := by
  have hsome : (r.kind? k.tag).isSome := List.find?_isSome.mpr ⟨k, hk, by simp⟩
  obtain ⟨k', hk'⟩ := Option.isSome_iff_exists.mp hsome
  have htag : k'.tag = k.tag := by simpa using List.find?_some hk'
  have hmem := List.mem_of_find?_eq_some hk'
  have he : k' = k := by
    rcases mem_kinds h hk with rfl | rfl | rfl | rfl <;>
      rcases mem_kinds h hmem with rfl | rfl | rfl | rfl <;>
        first | rfl | exact absurd htag (by decide)
  rw [hk', he]

theorem mapping?_services (h : registry ps = .ok r) {type : String} {k : MappingKind}
    (hk : r.mapping? type = some k) :
    k = serviceMappingKind ∧ type = ClassMappingExtension.servicesType := by
  have he := mem_mappings h (List.mem_of_find?_eq_some hk)
  have ht : k.type = type := by simpa using List.find?_some hk
  exact ⟨he, by rw [← ht, he]; rfl⟩

def full : Registry where
  plugins := all.map name
  kinds := all.flatMap fun p => p.plugin.kinds
  mappings := all.flatMap fun p => p.plugin.mappings
  cleaners := all.flatMap fun p => p.plugin.cleaners

theorem registry_all : registry all = .ok full := by
  rfl

end Preset
end ModelGraph
