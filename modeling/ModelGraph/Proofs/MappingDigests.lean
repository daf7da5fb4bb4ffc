import ModelGraph.Proofs.DigestWords
import ModelGraph.Proofs.UnnoticedChanges

namespace ModelGraph

open HashInput Mapping

namespace AggregationSpecification

/-- The specification whose two grouping functions make up a value instead. -/
def paired (s : AggregationSpecification) : AggregationSpecification :=
  match s.groupBy with
  | [x, y] => { s with groupBy := [], values := { map := x, aggregate := y } :: s.values }
  | _ => s

theorem hashInput_paired (s : AggregationSpecification) : s.paired.hashInput = s.hashInput := by
  rw [paired]
  split
  next x y h => simp [hashInput, h]
  · rfl

end AggregationSpecification

def SetImplementationKind.respecified (f : AggregationSpecification → AggregationSpecification) :
    SetImplementationKind → SetImplementationKind
  | .aggregationAware main aggregates properties =>
    .aggregationAware main
      (aggregates.map fun a => { a with specification := f a.specification }) properties
  | k => k

def SetImplementation.respecified (f : AggregationSpecification → AggregationSpecification)
    (s : SetImplementation) : SetImplementation :=
  { s with kind := s.kind.respecified f }

def Mapping.respecified (f : AggregationSpecification → AggregationSpecification) (m : Mapping) :
    Mapping :=
  { m with slots := m.slots.map (·.respecified f) }

section Respecified

variable {f : AggregationSpecification → AggregationSpecification}
  (hf : ∀ s, (f s).hashInput = s.hashInput)
include hf

theorem SetImplementationKind.nestedInput_respecified (nested : Nat → Digest)
    (k : SetImplementationKind) : (k.respecified f).nestedInput nested = k.nestedInput nested := by
  have haggregate : ∀ a : Aggregate, Aggregate.nestedInput nested
      { a with specification := f a.specification } = a.nestedInput nested := by
    intro a
    rw [Aggregate.nestedInput, AggregationSpecification.digest, hf]
    rfl
  cases k <;> simp [respecified, nestedInput, List.flatMap_map, haggregate]

theorem SetImplementation.inputs_respecified (nested : Nat → Digest)
    (within : Nat → List HashInput) (s : SetImplementation) :
    (s.respecified f).inputs nested within = s.inputs nested within := by
  cases hk : s.kind <;>
    simp [inputs, SetImplementation.properties, respecified, SetImplementationKind.respecified,
      kindInputs, hk, List.flatMap_map, hf]

namespace Mapping

theorem slotInput_respecified (m : Mapping) (fuel index : Nat) :
    (m.respecified f).slotInput fuel index = m.slotInput fuel index := by
  induction fuel generalizing index with
  | zero => rfl
  | succ fuel ih =>
    rw [slotInput_succ, slotInput_succ, respecified, List.getElem?_map]
    cases m.slots[index]? with
    | none => rfl
    | some s =>
      rw [← respecified, funext ih]
      simp only [Option.map_some, SetImplementation.respecified,
        SetImplementationKind.nestedInput_respecified hf]

theorem slotInputs_respecified (m : Mapping) (fuel index : Nat) :
    (m.respecified f).slotInputs fuel index = m.slotInputs fuel index := by
  induction fuel generalizing index with
  | zero => rfl
  | succ fuel ih =>
    rw [slotInputs, slotInputs, slotInput_respecified hf, funext (slotInput_respecified hf m fuel),
      funext ih, respecified, List.getElem?_map]
    cases m.slots[index]? with
    | none => rfl
    | some s => simp only [Option.map_some, s.inputs_respecified hf]

theorem hashInput_respecified (path : Path) (m : Mapping) :
    (m.respecified f).hashInput path = m.hashInput path := by
  have hdigest : (m.respecified f).slotDigest = m.slotDigest := by
    funext index
    rw [slotDigest, slotDigest, slotInput_respecified hf]
    exact congrArg (fun n => (m.slotInput (n + 1) index).digest) (List.length_map _)
  rw [Mapping.hashInput, hdigest]
  rfl

/-- Specifications of the same hash inputs make no difference to what a mapping is hashed by. -/
theorem inputs_respecified (path : Path) (m : Mapping) :
    (m.respecified f).inputs path = m.inputs path := by
  have hlength : (m.respecified f).slots.length = m.slots.length := List.length_map _
  rw [Mapping.inputs, hlength, funext (slotInputs_respecified hf m _), hashInput_respecified hf]
  rfl

end Mapping
end Respecified

namespace Graph

theorem entity_of_mapping {r : Registry} {p : Path} {m : Mapping} {w : Entity}
    (hw : (bare r).entity? (.placed p (.mapping m)) = .ok (some w)) :
    ∃ j, (bare r).mappingJson p m = .ok j ∧
      coreEntity (.placed p (.mapping m)) .mapping j = .ok w := by
  rw [entity?] at hw
  simp only [Element.placed] at hw
  split at hw
  next j hj => exact ⟨j, hj, some_of_map_some hw⟩
  · cases hw

/-- A mapping that a comparison of built graphs takes to be unchanged is written in both as entities
of one text, where specifications of one hash input part their functions at the same place. -/
theorem mappings_of_unnoticed {g g' : Graph} {r r' : Registry} {ps ps' : List Preset}
    {k k' n n' : Model} {freeze freeze' : Bool} {h h' : Handle} {e e' : Element} {m m' : Mapping}
    (hr : Preset.registry ps = .ok r) (hr' : Preset.registry ps' = .ok r')
    (hb : build r freeze k = .ok g) (hb' : build r' freeze' k' = .ok g') (hn : g.toModel = .ok n)
    (hn' : g'.toModel = .ok n') (hl : g.LiveAt h e) (hl' : g'.LiveAt h' e')
    (hm : e.body = .mapping m) (hm' : e'.body = .mapping m') (core : m.IsCore) (core' : m'.IsCore)
    (grouping : m.SameGrouping m') (apart : Apart (m.inputs e.path) (m'.inputs e'.path))
    (unmarked : Unmarked (m.inputs e.path)) (unmarked' : Unmarked (m'.inputs e'.path))
    (hu : Unnoticed g g' e e') :
    ∃ w ∈ n, ∃ w' ∈ n', w.path = e.path ∧ w'.path = e'.path ∧ w.SameText w' := by
  have s := stands_of_build hr hb hn hl
  have s' := stands_of_build hr' hb' hn' hl'
  have hc : e.body.IsContent := hm ▸ ⟨Kind.noConfusion, Kind.noConfusion⟩
  have hc' : e'.body.IsContent := hm' ▸ ⟨Kind.noConfusion, Kind.noConfusion⟩
  obtain ⟨w, hw, hpath, hwritten⟩ := s.written hc
  obtain ⟨w', hw', hpath', hwritten'⟩ := s'.written hc'
  have hdigest := hu.digest_eq s s' hc hc'
  have hbounded := s.bounded
  have hbounded' := s'.bounded
  rw [hm] at hwritten hdigest hbounded
  rw [hm'] at hwritten' hdigest hbounded'
  obtain ⟨j, hj, hwritten⟩ := entity_of_mapping hwritten
  obtain ⟨j', hj', hwritten'⟩ := entity_of_mapping hwritten'
  obtain ⟨hp, htext⟩ := mappingJson_sameText ⟨hbounded.1, hbounded'.1, core, core', grouping⟩
    hbounded.2 hbounded'.2 apart unmarked unmarked'
    (apart.agree List.mem_cons_self List.mem_cons_self hdigest) hj hj'
  refine ⟨w, hw, w', hw', hpath, hpath', entity_sameText ?_ ?_ htext hwritten hwritten'⟩
  · exact congrArg Path.name hp
  · exact hp

def specificationOf (paired : Bool) : AggregationSpecification :=
  if paired then AggregationSpecification.paired { groupBy := [.str "x", .str "y"] }
  else { groupBy := [.str "x", .str "y"] }

/-- A mapping of a class with an aggregate for queries that group by two functions. -/
def groupingMapping : Mapping where
  slots := [
    { id := .explicit "m", target := .bound ⟨"Party"⟩ ⟨12⟩, kind := .pureInstance none none [] },
    { id := .explicit "a", target := .bound ⟨"Party"⟩ ⟨12⟩, kind := .pureInstance none none [] },
    { id := .explicit "g", target := .bound ⟨"Party"⟩ ⟨12⟩
      kind := .aggregationAware 0
        [{ index := 0, specification := specificationOf false, slot := 1 }] [] }]
  top := [2]

def aggregationOf (paired : Bool) : Mapping :=
  if paired then groupingMapping.respecified .paired else groupingMapping

def aggregationEntity (paired : Bool) : Entity where
  path := ⟨"M"⟩
  classifier := "meta::pure::mapping::Mapping"
  content := .obj [("_type", .str "mapping"), ("classMappings", .arr [.obj [
    ("_type", .str "aggregationAware"), ("aggregateSetImplementations", .arr [.obj [
      ("aggregateSpecification", (specificationOf paired).toJson), ("index", .ofNat 0),
      ("setImplementation", .obj [("_type", .str "pureInstance"), ("class", .str "Party"),
        ("id", .str "a"), ("root", .bool false)])]]),
    ("class", .str "Party"), ("id", .str "g"), ("mainSetImplementation", .obj [
      ("_type", .str "pureInstance"), ("class", .str "Party"), ("id", .str "m"),
      ("root", .bool false)]), ("root", .bool false)]]),
    ("name", .str "M")]

def aggregationGraph (paired : Bool) : Graph :=
  (((new Preset.full).create ⟨"Party"⟩ (.class {})).1.create ⟨"M"⟩
    (.mapping (aggregationOf paired))).1

theorem build_aggregation (paired : Bool) :
    build Preset.full false [partyEntity [], aggregationEntity paired] =
      .ok (aggregationGraph paired) := by
  cases paired <;> rfl

theorem toModel_aggregation (paired : Bool) : (aggregationGraph paired).toModel =
    .ok (Model.sorted [partyEntity [], aggregationEntity paired]) := by
  have hentities : (aggregationGraph paired).live.mapM
      (fun l => (aggregationGraph paired).entity? l.2) =
        .ok (List.replicate 12 none ++ [some (partyEntity []), some (aggregationEntity paired)]) := by
    cases paired <;> rfl
  rw [toModel, hentities]
  rfl

theorem live_aggregation (paired : Bool) : (aggregationGraph paired).LiveAt ⟨13⟩
    (.placed ⟨"M"⟩ (.mapping (aggregationOf paired))) := by
  cases paired <;> exact ⟨rfl, rfl⟩

theorem isCore_aggregation (paired : Bool) : (aggregationOf paired).IsCore := by
  unfold IsCore
  cases paired <;> decide

def partyInput (id : String) : HashInput :=
  tag .setImplementation ++ optText (some id) ++ text "Party" ++ flag false ++
    (text "pureInstance" ++ optText none ++ optional json none ++ codes [])

def groupedInput : HashInput :=
  tag .setImplementation ++ optText (some "g") ++ text "Party" ++ flag false ++
    (text "aggregationAware" ++ code (partyInput "m").digest ++
      (word 0 ++ code (specificationOf false).hashInput.digest ++ code (partyInput "a").digest ++
        codes []))

theorem digests_grouping : ((groupingMapping.inputs ⟨"M"⟩).dedup.map HashInput.digest).Nodup ∧
    ∀ x ∈ groupingMapping.inputs ⟨"M"⟩, ¬word 32 <+: x.digest.bytes.toList := by
  have hinputs : groupingMapping.inputs ⟨"M"⟩ = [tag .mapping ++ text "M" ++ codes [] ++
    codes [groupedInput.digest] ++ codes [], groupedInput, partyInput "m",
      (specificationOf false).hashInput, partyInput "a"] := rfl
  simp only [hinputs, groupedInput, digest_eq_hashNumbers]
  decide +kernel

theorem mappings_of_unnoticed_aggregation :
    ∃ w ∈ Model.sorted [partyEntity [], aggregationEntity false],
      ∃ w' ∈ Model.sorted [partyEntity [], aggregationEntity false, otherEntity],
        w.path = ⟨"M"⟩ ∧ w'.path = ⟨"M"⟩ ∧ w.SameText w' := by
  have hb' : build Preset.full false [partyEntity [], aggregationEntity false, otherEntity] =
      .ok ((aggregationGraph false).create ⟨"Other"⟩ (.class {})).1 := rfl
  have hn' : ((aggregationGraph false).create ⟨"Other"⟩ (.class {})).1.toModel =
      .ok (Model.sorted [partyEntity [], aggregationEntity false, otherEntity]) := by
    have hentities : ((aggregationGraph false).create ⟨"Other"⟩ (.class {})).1.live.mapM
        (fun l => ((aggregationGraph false).create ⟨"Other"⟩ (.class {})).1.entity? l.2) =
          .ok (List.replicate 12 none ++
            [some (partyEntity []), some (aggregationEntity false), some otherEntity]) := rfl
    rw [toModel, hentities]
    rfl
  have hl' : ((aggregationGraph false).create ⟨"Other"⟩ (.class {})).1.LiveAt ⟨13⟩
      (.placed ⟨"M"⟩ (.mapping groupingMapping)) := ⟨rfl, rfl⟩
  have core : groupingMapping.IsCore := isCore_aggregation false
  have grouping : groupingMapping.SameGrouping groupingMapping := by
    have hone : groupingMapping.specifications = [specificationOf false] := rfl
    intro s hs t ht _
    rw [hone, List.mem_singleton] at hs ht
    rw [hs, ht]
  have apart : Apart (groupingMapping.inputs ⟨"M"⟩) (groupingMapping.inputs ⟨"M"⟩) :=
    .of_dedup (by decide +kernel) digests_grouping.1
  exact mappings_of_unnoticed Preset.registry_all Preset.registry_all (build_aggregation false) hb'
    (toModel_aggregation false) hn' (live_aggregation false) hl' rfl rfl core core grouping apart
    digests_grouping.2 digests_grouping.2 (.inl (exists_hash_eq rfl rfl rfl rfl rfl))

theorem hashInput_aggregation (paired : Bool) :
    (aggregationOf paired).hashInput ⟨"M"⟩ = groupingMapping.hashInput ⟨"M"⟩ := by
  cases paired with
  | false => rfl
  | true => exact hashInput_respecified AggregationSpecification.hashInput_paired _ _

theorem inputs_aggregation (paired : Bool) :
    (aggregationOf paired).inputs ⟨"M"⟩ = groupingMapping.inputs ⟨"M"⟩ := by
  cases paired with
  | false => rfl
  | true => exact inputs_respecified AggregationSpecification.hashInput_paired _ _

theorem hashIndex_aggregation :
    (aggregationGraph false).hashIndex.2 = (aggregationGraph true).hashIndex.2 := by
  have hdigests : ∀ paired, (aggregationGraph paired).digests =
      [(⟨"Party"⟩, (Class.hashInput ⟨"Party"⟩ {}).digest),
        (⟨"M"⟩, ((aggregationOf paired).hashInput ⟨"M"⟩).digest)] := by
    intro paired
    cases paired <;> rfl
  rw [hashIndex_of_build (build_aggregation false), hashIndex_of_build (build_aggregation true),
    hdigests, hdigests, hashInput_aggregation false, hashInput_aggregation true]

/-- That functions group instead of making up a value goes unnoticed, whatever the digests are. -/
theorem unnoticed_regrouping : ∃ g g' e e' m m' w w',
    build Preset.full false [partyEntity [], aggregationEntity false] = .ok g ∧
      build Preset.full false [partyEntity [], aggregationEntity true] = .ok g' ∧
      g.LiveAt ⟨13⟩ e ∧ g'.LiveAt ⟨13⟩ e' ∧ e.body = .mapping m ∧ e'.body = .mapping m' ∧
      m.IsCore ∧ m'.IsCore ∧ m.inputs e.path = m'.inputs e'.path ∧
      (∃ d x x', e.hash = .ok (d, x) ∧ e'.hash = .ok (d, x')) ∧
      g.toModel = .ok (Model.sorted [partyEntity [], w]) ∧
      g'.toModel = .ok (Model.sorted [partyEntity [], w']) ∧ ¬w.SameText w' ∧
      Diff.ofGraphs g g' = .ok {} := by
  refine ⟨_, _, _, _, _, _, _, _, build_aggregation false, build_aggregation true,
    live_aggregation false, live_aggregation true, rfl, rfl, isCore_aggregation false,
    isCore_aggregation true, (inputs_aggregation false).trans (inputs_aggregation true).symm,
    exists_hash_eq rfl rfl rfl rfl ?_, toModel_aggregation false, toModel_aggregation true, ?_, ?_⟩
  · exact (hashInput_aggregation false).trans (hashInput_aggregation true).symm
  · intro h
    have hcontent := h.content
    rw [Json.sameText_iff] at hcontent
    exact absurd hcontent (by decide +kernel)
  · exact (Diff.ofGraphs_eq_empty (hashIndex_of_build (build_aggregation false))
      (hashIndex_of_build (build_aggregation true))).mpr hashIndex_aggregation

end Graph
end ModelGraph
