import Mathlib.Data.List.Nodup
import ModelGraph.Proofs.Presets
import ModelGraph.Proofs.Steps

namespace ModelGraph

section Keys

variable {α : Type} {core : List String} {key : α → String} {xs ys : List α} {x : α}

/-- Entries no two of which have the same key and none of which has a key of the core. -/
structure DistinctBy (core : List String) (key : α → String) (xs : List α) : Prop where
  nodup : (xs.map key).Nodup
  own : ∀ x ∈ xs, key x ∉ core

namespace DistinctBy

theorem nil : DistinctBy core key [] := ⟨.nil, by simp⟩

theorem append_iff : DistinctBy core key (xs ++ ys) ↔
    DistinctBy core key xs ∧ DistinctBy core key ys ∧ ∀ x ∈ xs, ∀ y ∈ ys, key x ≠ key y := by
  constructor
  · rintro ⟨nodup, own⟩
    rw [List.map_append, List.nodup_append] at nodup
    refine ⟨⟨nodup.1, fun x h => own x (List.mem_append_left _ h)⟩,
      ⟨nodup.2.1, fun x h => own x (List.mem_append_right _ h)⟩, fun x hx y hy => ?_⟩
    exact nodup.2.2 _ (List.mem_map_of_mem hx) _ (List.mem_map_of_mem hy)
  · rintro ⟨dx, dy, hne⟩
    constructor
    · rw [List.map_append, List.nodup_append]
      refine ⟨dx.nodup, dy.nodup, fun a ha b hb => ?_⟩
      obtain ⟨x, hx, rfl⟩ := List.mem_map.mp ha
      obtain ⟨y, hy, rfl⟩ := List.mem_map.mp hb
      exact hne x hx y hy
    · intro x hx
      exact (List.mem_append.mp hx).elim (dx.own x) (dy.own x)

theorem left (d : DistinctBy core key (xs ++ ys)) : DistinctBy core key xs := (append_iff.mp d).1

theorem right (d : DistinctBy core key (xs ++ ys)) : DistinctBy core key ys := (append_iff.mp d).2.1

theorem concat_iff (d : DistinctBy core key xs) :
    DistinctBy core key (xs ++ [x]) ↔ key x ∉ core ∧ key x ∉ xs.map key := by
  have hone : DistinctBy core key [x] ↔ key x ∉ core :=
    ⟨fun h => h.own x List.mem_cons_self, fun h => ⟨by simp, by simpa using h⟩⟩
  rw [append_iff, hone]
  simp [d]

theorem concat_append_iff (d : DistinctBy core key (xs ++ ys)) :
    DistinctBy core key (xs ++ [x]) ∧ DistinctBy core key (ys ++ [x]) ↔
      DistinctBy core key (xs ++ ys ++ [x]) := by
  rw [d.left.concat_iff, d.right.concat_iff, d.concat_iff, List.map_append, List.mem_append, not_or]
  tauto

end DistinctBy
end Keys

section Maps

variable {α : Type} {key : α → String}

theorem find?_key_iff {xs : List α} (h : (xs.map key).Nodup) {k : String} {x : α} :
    xs.find? (key · == k) = some x ↔ x ∈ xs ∧ key x = k := by
  constructor
  · intro hf
    exact ⟨List.mem_of_find?_eq_some hf, by simpa using List.find?_some hf⟩
  · rintro ⟨hm, rfl⟩
    have hsome : (xs.find? (key · == key x)).isSome := List.find?_isSome.mpr ⟨x, hm, by simp⟩
    obtain ⟨y, hy⟩ := Option.isSome_iff_exists.mp hsome
    have hkey : key y = key x := by simpa using List.find?_some hy
    rw [hy, List.inj_on_of_nodup_map h (List.mem_of_find?_eq_some hy) hm hkey]

theorem isSome_find?_key {xs : List α} {k : String} :
    (xs.find? (key · == k)).isSome ↔ k ∈ xs.map key := by
  simp

/-- Puts an entry into a map that remembers in which order its keys came; an entry whose key is
there takes the place of the one that has it. -/
def enter (key : α → String) (xs : List α) (x : α) : List α :=
  match xs with
  | [] => [x]
  | y :: ys => if key y = key x then x :: ys else y :: enter key ys x

theorem enter_of_not_mem {xs : List α} {x : α} (h : key x ∉ xs.map key) :
    enter key xs x = xs ++ [x] := by
  induction xs with
  | nil => rfl
  | cons y ys ih =>
    rw [List.map_cons, List.mem_cons, not_or] at h
    rw [enter, if_neg fun he => h.1 he.symm, ih h.2, List.cons_append]

theorem foldl_enter {xs ys : List α} (h : ((xs ++ ys).map key).Nodup) :
    ys.foldl (enter key) xs = xs ++ ys := by
  induction ys generalizing xs with
  | nil => simp
  | cons y ys ih =>
    rw [List.append_cons] at h
    have hy : key y ∉ xs.map key := by
      rw [List.map_append, List.map_append] at h
      intro hm
      exact (List.nodup_append.mp (List.nodup_append.mp h).1).2.2 _ hm _ (by simp) rfl
    rw [List.foldl_cons, enter_of_not_mem hy, ih h, ← List.append_cons]

end Maps

namespace Registry

/-- Element kinds that can be in one registry. -/
structure DistinctKinds (kinds : List ElementKind) : Prop where
  tags : DistinctBy [] ElementKind.tag kinds
  classifiers : DistinctBy Classifier.paths ElementKind.classifier kinds
  types : DistinctBy Classifier.types ElementKind.type kinds

/-- Class mappings that can be in one registry. -/
abbrev DistinctMappings (mappings : List MappingKind) : Prop :=
  DistinctBy ClassMappingDocument.types MappingKind.type mappings

/-- A registry whose extensions have no key in common, with one another or with the core. -/
structure Distinct (r : Registry) : Prop where
  plugins : r.plugins.Nodup
  kinds : DistinctKinds r.kinds
  mappings : DistinctMappings r.mappings

theorem distinct_empty : empty.Distinct := ⟨.nil, ⟨.nil, .nil, .nil⟩, .nil⟩

namespace DistinctKinds

variable {kinds more : List ElementKind} {k : ElementKind}

theorem left (d : DistinctKinds (kinds ++ more)) : DistinctKinds kinds :=
  ⟨d.tags.left, d.classifiers.left, d.types.left⟩

theorem right (d : DistinctKinds (kinds ++ more)) : DistinctKinds more :=
  ⟨d.tags.right, d.classifiers.right, d.types.right⟩

theorem concat_append_iff (d : DistinctKinds (kinds ++ more)) :
    DistinctKinds (kinds ++ [k]) ∧ DistinctKinds (more ++ [k]) ↔
      DistinctKinds (kinds ++ more ++ [k]) := by
  constructor
  · rintro ⟨hk, hm⟩
    exact ⟨d.tags.concat_append_iff.mp ⟨hk.tags, hm.tags⟩,
      d.classifiers.concat_append_iff.mp ⟨hk.classifiers, hm.classifiers⟩,
      d.types.concat_append_iff.mp ⟨hk.types, hm.types⟩⟩
  · intro h
    have htags := d.tags.concat_append_iff.mpr h.tags
    have hclassifiers := d.classifiers.concat_append_iff.mpr h.classifiers
    have htypes := d.types.concat_append_iff.mpr h.types
    exact ⟨⟨htags.1, hclassifiers.1, htypes.1⟩, ⟨htags.2, hclassifiers.2, htypes.2⟩⟩

end DistinctKinds

section Taken

variable {r : Registry}

/-- No key of a kind is taken if and only if the kind fits in with those that are there. -/
theorem takenKindKey?_eq_none_iff (d : DistinctKinds r.kinds) {k : ElementKind} :
    r.takenKindKey? k = none ↔ DistinctKinds (r.kinds ++ [k]) := by
  have hparts : DistinctKinds (r.kinds ++ [k]) ↔
      (k.tag ∉ [] ∧ k.tag ∉ r.kinds.map ElementKind.tag) ∧
      (k.classifier ∉ Classifier.paths ∧ k.classifier ∉ r.kinds.map ElementKind.classifier) ∧
      k.type ∉ Classifier.types ∧ k.type ∉ r.kinds.map ElementKind.type := by
    rw [← d.tags.concat_iff, ← d.classifiers.concat_iff, ← d.types.concat_iff]
    exact ⟨fun h => ⟨h.tags, h.classifiers, h.types⟩, fun h => ⟨h.1, h.2.1, h.2.2⟩⟩
  rw [hparts, takenKindKey?]
  simp only [kind?, kindByClassifier?, kindByType?, isSome_find?_key, Bool.or_eq_true,
    List.contains_iff_mem, ← not_or]
  split_ifs <;> simp_all

theorem takenMappingKey?_eq_none_iff (d : DistinctMappings r.mappings) {m : MappingKind} :
    r.takenMappingKey? m = none ↔ DistinctMappings (r.mappings ++ [m]) := by
  rw [DistinctMappings, d.concat_iff, takenMappingKey?]
  simp only [mapping?, isSome_find?_key, Bool.or_eq_true, List.contains_iff_mem, ← not_or]
  split_ifs <;> simp_all

end Taken

theorem addKind_eq_ok {r r' : Registry} (d : DistinctKinds r.kinds) {k : ElementKind} :
    r.addKind k = .ok r' ↔
      DistinctKinds (r.kinds ++ [k]) ∧ { r with kinds := r.kinds ++ [k] } = r' := by
  rw [← takenKindKey?_eq_none_iff d, addKind]
  cases r.takenKindKey? k <;> simp

theorem addMapping_eq_ok {r r' : Registry} (d : DistinctMappings r.mappings) {m : MappingKind} :
    r.addMapping m = .ok r' ↔
      DistinctMappings (r.mappings ++ [m]) ∧ { r with mappings := r.mappings ++ [m] } = r' := by
  rw [← takenMappingKey?_eq_none_iff d, addMapping]
  cases r.takenMappingKey? m <;> simp

/-- The kinds of a plugin can be staged if and only if they fit in with those of the registry. -/
theorem stageKinds_ok_iff {r stage : Registry} {kinds : List ElementKind}
    (d : DistinctKinds (r.kinds ++ stage.kinds)) :
    (∃ stage', r.stageKinds stage kinds = .ok stage') ↔
      DistinctKinds (r.kinds ++ stage.kinds ++ kinds) := by
  induction kinds generalizing stage with
  | nil => simp [stageKinds, d]
  | cons k kinds ih =>
    simp only [stageKinds, bind_eq_ok, addKind_eq_ok d.left, addKind_eq_ok d.right]
    rw [List.append_cons _ k kinds]
    by_cases hk : DistinctKinds (r.kinds ++ stage.kinds ++ [k])
    · obtain ⟨hr, hstage⟩ := d.concat_append_iff.mpr hk
      have hrest := @ih { stage with kinds := stage.kinds ++ [k] } (List.append_assoc .. ▸ hk)
      rw [← List.append_assoc] at hrest
      simpa [hr, hstage] using hrest
    · refine iff_of_false ?_ fun h => hk h.left
      rintro ⟨_, _, ⟨hr, -⟩, _, ⟨hstage, -⟩, -⟩
      exact hk (d.concat_append_iff.mp ⟨hr, hstage⟩)

theorem stageMappings_ok_iff {r stage : Registry} {mappings : List MappingKind}
    (d : DistinctMappings (r.mappings ++ stage.mappings)) :
    (∃ stage', r.stageMappings stage mappings = .ok stage') ↔
      DistinctMappings (r.mappings ++ stage.mappings ++ mappings) := by
  induction mappings generalizing stage with
  | nil => simp [stageMappings, d]
  | cons m mappings ih =>
    simp only [stageMappings, bind_eq_ok, addMapping_eq_ok d.left, addMapping_eq_ok d.right]
    rw [List.append_cons _ m mappings]
    by_cases hm : DistinctMappings (r.mappings ++ stage.mappings ++ [m])
    · obtain ⟨hr, hstage⟩ := d.concat_append_iff.mpr hm
      have hrest := @ih { stage with mappings := stage.mappings ++ [m] } (List.append_assoc .. ▸ hm)
      rw [← List.append_assoc] at hrest
      simpa [hr, hstage] using hrest
    · refine iff_of_false ?_ fun h => hm h.left
      rintro ⟨_, _, ⟨hr, -⟩, _, ⟨hstage, -⟩, -⟩
      exact hm (d.concat_append_iff.mp ⟨hr, hstage⟩)

def append (r s : Registry) : Registry where
  plugins := r.plugins ++ s.plugins
  kinds := r.kinds ++ s.kinds
  mappings := r.mappings ++ s.mappings
  cleaners := r.cleaners ++ s.cleaners

def ofPlugin (p : Plugin) : Registry where
  plugins := [p.name]
  kinds := p.kinds
  mappings := p.mappings
  cleaners := p.cleaners

theorem distinct_append_plugin {r : Registry} (d : r.Distinct) {p : Plugin} :
    (r.append (ofPlugin p)).Distinct ↔
      p.name ∉ r.plugins ∧ DistinctKinds (r.kinds ++ p.kinds) ∧
        DistinctMappings (r.mappings ++ p.mappings) := by
  have hname : (r.plugins ++ [p.name]).Nodup ↔ p.name ∉ r.plugins := by
    rw [← List.concat_eq_append, List.nodup_concat, and_iff_left d.plugins]
  rw [← hname]
  exact ⟨fun h => ⟨h.plugins, h.kinds, h.mappings⟩, fun h => ⟨h.1, h.2.1, h.2.2⟩⟩

/-- A plugin can be installed if and only if its extensions fit in with those of the registry. -/
theorem install_eq_ok_iff {r r' : Registry} (d : r.Distinct) {p : Plugin} :
    r.install p = .ok r' ↔ (r.append (ofPlugin p)).Distinct ∧ r.append (ofPlugin p) = r' := by
  have hstaged : (∃ stage, r.stageKinds empty p.kinds = .ok stage) ↔
      DistinctKinds (r.kinds ++ p.kinds) := by
    simpa [empty] using @stageKinds_ok_iff r empty p.kinds (by simpa [empty] using d.kinds)
  have hmapped : (∃ stage, r.stageMappings { empty with kinds := empty.kinds ++ p.kinds } p.mappings =
      .ok stage) ↔ DistinctMappings (r.mappings ++ p.mappings) := by
    simpa [empty] using @stageMappings_ok_iff r { kinds := p.kinds } p.mappings
      (by simpa using d.mappings)
  rw [distinct_append_plugin d]
  constructor
  · intro h
    refine ⟨?_, (install_eq_ok h).symm⟩
    unfold install at h
    obtain ⟨hname, h⟩ := check_eq_ok.mp h
    obtain ⟨stage, hstage, h⟩ := bind_eq_ok.mp h
    obtain ⟨stage', hstage', h⟩ := bind_eq_ok.mp h
    obtain rfl := stageKinds_eq_ok hstage
    exact ⟨by simpa using hname, hstaged.mp ⟨_, hstage⟩, hmapped.mp ⟨stage', hstage'⟩⟩
  · rintro ⟨⟨hname, hkinds, hmappings⟩, rfl⟩
    obtain ⟨stage, hstage⟩ := hstaged.mpr hkinds
    obtain rfl := stageKinds_eq_ok hstage
    obtain ⟨stage', hstage'⟩ := hmapped.mpr hmappings
    obtain rfl := stageMappings_eq_ok hstage'
    rw [install, if_neg (by simpa using hname)]
    simp only [hstage, hstage', ok_bind]
    rfl

section Faults

variable {r stage : Registry} {fault : GraphError}

theorem addKind_eq_error {k : ElementKind} (h : r.addKind k = .error fault) :
    ∃ key, fault = .duplicateExtension key := by
  unfold addKind at h
  split at h <;> cases h
  exact ⟨_, rfl⟩

theorem addMapping_eq_error {m : MappingKind} (h : r.addMapping m = .error fault) :
    ∃ key, fault = .duplicateExtension key := by
  unfold addMapping at h
  split at h <;> cases h
  exact ⟨_, rfl⟩

theorem stageKinds_eq_error {kinds : List ElementKind}
    (h : r.stageKinds stage kinds = .error fault) : ∃ key, fault = .duplicateExtension key := by
  induction kinds generalizing stage with
  | nil => cases h
  | cons k kinds ih =>
    rcases bind_eq_error.mp h with h | ⟨_, -, h⟩
    · exact addKind_eq_error h
    · rcases bind_eq_error.mp h with h | ⟨_, -, h⟩
      · exact addKind_eq_error h
      · exact ih h

theorem stageMappings_eq_error {mappings : List MappingKind}
    (h : r.stageMappings stage mappings = .error fault) :
    ∃ key, fault = .duplicateExtension key := by
  induction mappings generalizing stage with
  | nil => cases h
  | cons m mappings ih =>
    rcases bind_eq_error.mp h with h | ⟨_, -, h⟩
    · exact addMapping_eq_error h
    · rcases bind_eq_error.mp h with h | ⟨_, -, h⟩
      · exact addMapping_eq_error h
      · exact ih h

theorem install_eq_error {p : Plugin} (h : r.install p = .error fault) :
    ∃ key, fault = .duplicateExtension key := by
  unfold install at h
  split at h
  · cases h
    exact ⟨_, rfl⟩
  · rcases bind_eq_error.mp h with h | ⟨_, -, h⟩
    · exact stageKinds_eq_error h
    · rcases bind_eq_error.mp h with h | ⟨_, -, h⟩
      · exact stageMappings_eq_error h
      · cases h

end Faults

end Registry

abbrev Filling := Steps Registry

namespace Filling

open Steps

def demand (taken? : Option String) : Filling Unit :=
  match taken? with
  | none => pure ()
  | some key => throw (.duplicateExtension key)

def addKind (k : ElementKind) : Filling Unit := do
  demand ((← get).takenKindKey? k)
  modify fun r => { r with kinds := enter ElementKind.tag r.kinds k }

def addMapping (m : MappingKind) : Filling Unit := do
  demand ((← get).takenMappingKey? m)
  modify fun r => { r with mappings := enter MappingKind.type r.mappings m }

def addCleaner (c : Cleaner) : Filling Unit :=
  modify fun r => { r with cleaners := r.cleaners ++ [c] }

def stageKinds (stage : Registry) : List ElementKind → Filling Registry
  | [] => pure stage
  | k :: rest => do
    demand ((← get).takenKindKey? k)
    demand (stage.takenKindKey? k)
    stageKinds { stage with kinds := enter ElementKind.tag stage.kinds k } rest

def stageMappings (stage : Registry) : List MappingKind → Filling Registry
  | [] => pure stage
  | m :: rest => do
    demand ((← get).takenMappingKey? m)
    demand (stage.takenMappingKey? m)
    stageMappings { stage with mappings := enter MappingKind.type stage.mappings m } rest

/-- Stages the extensions of a plugin, then moves them into the registry, one family after the
other. -/
def install (p : Plugin) : Filling Unit := do
  if (← get).plugins.contains p.name then throw (.duplicateExtension p.name)
  let stage ← stageKinds Registry.empty p.kinds
  let stage ← stageMappings stage p.mappings
  modify fun r => { r with kinds := stage.kinds.foldl (enter ElementKind.tag) r.kinds }
  modify fun r => { r with mappings := stage.mappings.foldl (enter MappingKind.type) r.mappings }
  modify fun r => { r with cleaners := r.cleaners ++ p.cleaners }
  modify fun r => { r with plugins := r.plugins ++ [p.name] }

variable {r : Registry}

theorem enter_kind {k : ElementKind} (h : r.takenKindKey? k = none) :
    enter ElementKind.tag r.kinds k = r.kinds ++ [k] := by
  refine enter_of_not_mem fun hm => ?_
  rw [Registry.takenKindKey?, Registry.kind?, if_pos (isSome_find?_key.mpr hm)] at h
  cases h

theorem enter_mapping {m : MappingKind} (h : r.takenMappingKey? m = none) :
    enter MappingKind.type r.mappings m = r.mappings ++ [m] := by
  refine enter_of_not_mem fun hm => ?_
  rw [Registry.takenMappingKey?, Registry.mapping?, isSome_find?_key.mpr hm, Bool.or_true,
    if_pos rfl] at h
  cases h

@[simp]
theorem outcome_demand_bind {β : Type} (taken? : Option String) (f : Unit → Filling β) :
    outcome (demand taken? >>= f) r = match taken? with
      | none => outcome (f ()) r
      | some key => (.error (.duplicateExtension key), r) := by
  rw [outcome_bind]
  cases taken? <;> rfl

theorem outcome_addKind (k : ElementKind) : outcome (addKind k) r = settled r (r.addKind k) := by
  simp only [addKind, outcome_get_bind, outcome_demand_bind, outcome_modify, Registry.addKind]
  cases h : r.takenKindKey? k with
  | some key => rfl
  | none => simp only [enter_kind h, settled]

theorem outcome_addMapping (m : MappingKind) :
    outcome (addMapping m) r = settled r (r.addMapping m) := by
  simp only [addMapping, outcome_get_bind, outcome_demand_bind, outcome_modify, Registry.addMapping]
  cases h : r.takenMappingKey? m with
  | some key => rfl
  | none => simp only [enter_mapping h, settled]

theorem outcome_stageKinds (stage : Registry) (kinds : List ElementKind) :
    outcome (stageKinds stage kinds) r = (r.stageKinds stage kinds, r) := by
  induction kinds generalizing stage with
  | nil => rfl
  | cons k kinds ih =>
    simp only [stageKinds, outcome_get_bind, outcome_demand_bind, ih, Registry.stageKinds,
      Registry.addKind]
    cases r.takenKindKey? k with
    | some key => rfl
    | none =>
      cases hs : stage.takenKindKey? k with
      | some key => rfl
      | none => simp only [enter_kind hs, ok_bind]

theorem outcome_stageMappings (stage : Registry) (mappings : List MappingKind) :
    outcome (stageMappings stage mappings) r = (r.stageMappings stage mappings, r) := by
  induction mappings generalizing stage with
  | nil => rfl
  | cons m mappings ih =>
    simp only [stageMappings, outcome_get_bind, outcome_demand_bind, ih, Registry.stageMappings,
      Registry.addMapping]
    cases r.takenMappingKey? m with
    | some key => rfl
    | none =>
      cases hs : stage.takenMappingKey? m with
      | some key => rfl
      | none => simp only [enter_mapping hs, ok_bind]

/-- Nothing is moved into the registry before everything has been staged, and what is moved takes
the place of nothing. -/
theorem outcome_install (d : r.Distinct) (p : Plugin) :
    outcome (install p) r = settled r (r.install p) := by
  have hmoved : ∀ r', r.install p = .ok r' →
      p.kinds.foldl (enter ElementKind.tag) r.kinds = r.kinds ++ p.kinds ∧
        p.mappings.foldl (enter MappingKind.type) r.mappings = r.mappings ++ p.mappings := by
    intro r' h
    obtain ⟨hd, -⟩ := (Registry.install_eq_ok_iff d).mp h
    exact ⟨foldl_enter hd.kinds.tags.nodup, foldl_enter hd.mappings.nodup⟩
  simp only [install, Registry.install, outcome_get_bind] at hmoved ⊢
  by_cases hname : r.plugins.contains p.name
  · rw [if_pos hname, if_pos hname, outcome_bind]
    rfl
  · simp only [if_neg hname] at hmoved ⊢
    rw [outcome_bind, outcome_stageKinds]
    cases hk : r.stageKinds Registry.empty p.kinds with
    | error fault => rfl
    | ok stage =>
      simp only [ok_bind]
      rw [outcome_bind, outcome_stageMappings]
      cases hm : r.stageMappings stage p.mappings with
      | error fault => rfl
      | ok stage' =>
        obtain ⟨hkinds, hmappings⟩ := hmoved _ (by simp only [hk, hm, ok_bind]; rfl)
        rw [Registry.stageMappings_eq_ok hm, Registry.stageKinds_eq_ok hk]
        simp only [outcome_bind, outcome_modify, Registry.empty, List.nil_append, hkinds, hmappings]
        rfl

end Filling

/-- A call that registers extensions. -/
inductive Registration where
  | install (p : Plugin)
  | addKind (k : ElementKind)
  | addMapping (m : MappingKind)
  | addCleaner (c : Cleaner)

namespace Registration

def steps : Registration → Filling Unit
  | .install p => Filling.install p
  | .addKind k => Filling.addKind k
  | .addMapping m => Filling.addMapping m
  | .addCleaner c => Filling.addCleaner c

/-- How the call ends, and the registry it leaves. -/
def run (c : Registration) (r : Registry) : Except GraphError Unit × Registry :=
  Steps.outcome c.steps r

def result (r : Registry) : Registration → Except GraphError Registry
  | .install p => r.install p
  | .addKind k => r.addKind k
  | .addMapping m => r.addMapping m
  | .addCleaner c => .ok (r.addCleaner c)

def extensions : Registration → Registry
  | .install p => .ofPlugin p
  | .addKind k => { kinds := [k] }
  | .addMapping m => { mappings := [m] }
  | .addCleaner c => { cleaners := [c] }

variable {r r' : Registry}

theorem run_eq (d : r.Distinct) (c : Registration) : c.run r = Steps.settled r (c.result r) := by
  cases c with
  | install p => exact Filling.outcome_install d p
  | addKind k => exact Filling.outcome_addKind k
  | addMapping m => exact Filling.outcome_addMapping m
  | addCleaner c => rfl

theorem result_eq_ok_iff (d : r.Distinct) (c : Registration) :
    c.result r = .ok r' ↔ (r.append c.extensions).Distinct ∧ r.append c.extensions = r' := by
  cases c with
  | install p => exact Registry.install_eq_ok_iff d
  | addKind k =>
    have hfits : (r.append { kinds := [k] }).Distinct ↔ Registry.DistinctKinds (r.kinds ++ [k]) :=
      ⟨fun h => h.kinds, fun h =>
        ⟨by simpa [Registry.append] using d.plugins, h, by simpa [Registry.append] using d.mappings⟩⟩
    rw [result, Registry.addKind_eq_ok d.kinds, extensions, hfits]
    simp [Registry.append]
  | addMapping m =>
    have hfits : (r.append { mappings := [m] }).Distinct ↔
        Registry.DistinctMappings (r.mappings ++ [m]) :=
      ⟨fun h => h.mappings, fun h =>
        ⟨by simpa [Registry.append] using d.plugins, by simpa [Registry.append] using d.kinds, h⟩⟩
    rw [result, Registry.addMapping_eq_ok d.mappings, extensions, hfits]
    simp [Registry.append]
  | addCleaner c =>
    have hfits : (r.append { cleaners := [c] }).Distinct :=
      ⟨by simpa [Registry.append] using d.plugins, by simpa [Registry.append] using d.kinds,
        by simpa [Registry.append] using d.mappings⟩
    rw [result, extensions, and_iff_right hfits]
    simp [Registry.append, Registry.addCleaner]

theorem result_eq_error {c : Registration} {fault : GraphError} (h : c.result r = .error fault) :
    ∃ key, fault = .duplicateExtension key := by
  cases c with
  | install p => exact Registry.install_eq_error h
  | addKind k => exact Registry.addKind_eq_error h
  | addMapping m => exact Registry.addMapping_eq_error h
  | addCleaner c => cases h

theorem distinct_run (d : r.Distinct) (c : Registration) : (c.run r).2.Distinct := by
  rw [run_eq d]
  cases h : c.result r with
  | error fault => exact d
  | ok r' =>
    obtain ⟨hd, rfl⟩ := (result_eq_ok_iff d c).mp h
    exact hd

/-- The registry that calls leave, one made after the other whether they fail or not. -/
def runAll (calls : List Registration) (r : Registry) : Registry :=
  calls.foldl (fun r c => (c.run r).2) r

theorem distinct_runAll (d : r.Distinct) (calls : List Registration) :
    (runAll calls r).Distinct := by
  induction calls generalizing r with
  | nil => exact d
  | cons c calls ih => exact ih (distinct_run d c)

/-- Extensions never overlap: after any calls on an empty registry they have distinct keys outside
the core, a look-up finds the extension that has the key and no other, and the next call adds all
its extensions at the end, if these keep the keys distinct, or else fails and changes nothing. -/
theorem extensions_never_overlap (calls : List Registration) :
    let r := runAll calls .empty
    r.Distinct ∧
    (∀ k tag, r.kind? tag = some k ↔ k ∈ r.kinds ∧ k.tag = tag) ∧
    (∀ k path, r.kindByClassifier? path = some k ↔ k ∈ r.kinds ∧ k.classifier = path) ∧
    (∀ k type, r.kindByType? type = some k ↔ k ∈ r.kinds ∧ k.type = type) ∧
    (∀ m type, r.mapping? type = some m ↔ m ∈ r.mappings ∧ m.type = type) ∧
    ∀ c : Registration,
      ((r.append c.extensions).Distinct ∧ c.result r = .ok (r.append c.extensions) ∧
        c.run r = (.ok (), r.append c.extensions)) ∨
      (¬(r.append c.extensions).Distinct ∧ ∃ key,
        c.result r = .error (.duplicateExtension key) ∧
        c.run r = (.error (.duplicateExtension key), r)) := by
  intro r
  have d : r.Distinct := distinct_runAll Registry.distinct_empty calls
  refine ⟨d, fun _ _ => find?_key_iff d.kinds.tags.nodup,
    fun _ _ => find?_key_iff d.kinds.classifiers.nodup,
    fun _ _ => find?_key_iff d.kinds.types.nodup, fun _ _ => find?_key_iff d.mappings.nodup, ?_⟩
  intro c
  rw [run_eq d]
  cases h : c.result r with
  | ok r' =>
    obtain ⟨hd, rfl⟩ := (result_eq_ok_iff d c).mp h
    exact .inl ⟨hd, rfl, rfl⟩
  | error fault =>
    obtain ⟨key, rfl⟩ := result_eq_error h
    refine .inr ⟨fun hd => ?_, key, rfl, rfl⟩
    rw [(result_eq_ok_iff d c).mpr ⟨hd, rfl⟩] at h
    cases h

end Registration
end ModelGraph
