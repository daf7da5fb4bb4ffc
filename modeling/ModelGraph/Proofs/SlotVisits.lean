import ModelGraph.Proofs.BoundedBodies
import ModelGraph.Proofs.SlotForests

namespace ModelGraph

open Record Json

/-- A computation that may fail and that notes slots. -/
abbrev Noting (ε α : Type) : Type := StateT (List Nat) (Except ε) α

namespace Noting

variable {ε ε' α β : Type}

def note (index : Nat) : Noting ε Unit := modify (· ++ [index])

def mapError (f : ε → ε') (x : Noting ε α) : Noting ε' α := fun noted => (x noted).mapError f

theorem lift_ok_bind (a : α) (f : α → Noting ε β) :
    (liftM (Except.ok a : Except ε α) >>= f) = f a := rfl

/-- The computation yields what another one does without notes, and notes the given slots, in any
order, if it succeeds. -/
structure Enters (x : Noting ε α) (y : Except ε α) (slots : List Nat) : Prop where
  result : ∀ noted, (x.run noted).map Prod.fst = y
  noted : ∀ {before after a}, x.run before = .ok (a, after) → after.Perm (before ++ slots)

variable {x : Noting ε α} {y : Except ε α} {slots slots' : List Nat}

namespace Enters

theorem perm (h : Enters x y slots) (hp : slots.Perm slots') : Enters x y slots' :=
  ⟨h.result, fun ha => (h.noted ha).trans (hp.append_left _)⟩

theorem pure (a : α) : Enters (Pure.pure a : Noting ε α) (.ok a) [] := by
  refine ⟨fun _ => rfl, ?_⟩
  intro before after b h
  cases h
  exact .of_eq (List.append_nil _).symm

theorem throw (fault : ε) : Enters (MonadExcept.throw fault : Noting ε α) (.error fault) slots := by
  refine ⟨fun _ => rfl, ?_⟩
  intro before after a h
  cases h

theorem note (index : Nat) : Enters (Noting.note index : Noting ε Unit) (.ok ()) [index] := by
  refine ⟨fun _ => rfl, ?_⟩
  intro before after a h
  cases h
  exact .refl _

theorem lift (y : Except ε α) : Enters (liftM y : Noting ε α) y [] := by
  cases y with
  | ok a => exact pure a
  | error fault => exact throw fault

theorem bind {f : α → Noting ε β} {g : α → Except ε β} (hx : Enters x y slots)
    (hf : ∀ a, y = .ok a → Enters (f a) (g a) slots') :
    Enters (x >>= f) (y >>= g) (slots ++ slots') := by
  constructor
  · intro noted
    have hy := hx.result noted
    rw [StateT.run_bind]
    cases hr : x.run noted with
    | error fault =>
      rw [hr] at hy
      subst hy
      rfl
    | ok result =>
      rw [hr] at hy
      subst hy
      exact (hf _ rfl).result _
  · intro before after b h
    rw [StateT.run_bind] at h
    obtain ⟨⟨a, middle⟩, ha, hb⟩ := bind_eq_ok.mp h
    have hy : y = .ok a := by rw [← hx.result before, ha]; rfl
    rw [← List.append_assoc]
    exact ((hf a hy).noted hb).trans ((hx.noted ha).append_right _)

theorem after (h : Enters x y slots) (f : α → β) :
    Enters (x >>= fun a => Pure.pure (f a)) (y >>= fun a => Pure.pure (f a)) slots := by
  rw [← List.append_nil slots]
  exact h.bind fun a _ => pure (f a)

theorem mapM {f : α → Noting ε β} {g : α → Except ε β} {enters : α → List Nat} {items : List α}
    (h : ∀ a ∈ items, Enters (f a) (g a) (enters a)) :
    Enters (items.mapM f) (items.mapM g) (items.flatMap enters) := by
  induction items with
  | nil => exact pure []
  | cons a items ih =>
    rw [List.mapM_cons, List.mapM_cons, List.flatMap_cons]
    refine (h a List.mem_cons_self).bind fun b _ => ?_
    exact (ih fun c hc => h c (List.mem_cons_of_mem _ hc)).after (b :: ·)

theorem mapError (f : ε → ε') (h : Enters x y slots) :
    Enters (x.mapError f) (y.mapError f) slots := by
  constructor
  · intro noted
    rw [← h.result noted]
    change Except.map Prod.fst ((x.run noted).mapError f) = _
    cases x.run noted <;> rfl
  · intro before after a ha
    exact h.noted (ok_of_mapError ha)

end Enters
end Noting

open Noting

namespace Mapping

/-- Writes a property mapping and notes the slots that are embedded in it. -/
def propertyNoted (names : Naming) (m : Mapping) :
    (fuel : Nat) → PropertyMapping → Noting MappingFault Json
  | 0, _ => throw (.missingSlot 0)
  | fuel + 1, p =>
    match p.embedded? with
    | none => liftM (m.propertyJson names (fuel + 1) p)
    | some index => do
      note index
      let s ← m.slot index
      match s.kind with
      | .embedded properties =>
        let properties ← properties.mapM (propertyNoted names m fuel)
        return p.embeddedJson names s properties
      | _ => throw (.notEmbedded p.property s.id.value)

def classMappingNoted (names : Naming) (m : Mapping) :
    (fuel : Nat) → (index : Nat) → Noting MappingFault Json
  | 0, index => throw (.missingSlot index)
  | fuel + 1, index => do
    note index
    let s ← m.slot index
    let head := ClassMappingHeader.record names s
    let propertyJsons (properties : List PropertyMapping) : Noting MappingFault (List Json) :=
      properties.mapM (m.propertyNoted names (m.slots.length + 1))
    match s.kind with
    | .pureInstance source filter properties =>
      let properties ← propertyJsons properties
      return Record.tagged "pureInstance" (head ++
        .optField "srcClass" (source.map (·.toJson names)) ++ .optField "filter" filter ++
        .listField "propertyMappings" properties)
    | .relational distinct table key properties =>
      let properties ← propertyJsons properties
      return Record.tagged "relational" (head ++ .field "distinct" (.bool distinct) ++
        .optField "mainTable" (table.map (·.toJson names)) ++
        .listField "primaryKey" (RelationalOperation.toJsons names key) ++
        .listField "propertyMappings" properties)
    | .aggregationAware main aggregates properties =>
      let aggregates ← aggregates.mapM fun a => do
        let d ← classMappingNoted names m fuel a.slot
        return Record.toJson (.field "index" (.ofNat a.index) ++
          .field "aggregateSpecification" a.specification.toJson ++ .field "setImplementation" d)
      let main ← classMappingNoted names m fuel main
      let properties ← propertyJsons properties
      return Record.tagged "aggregationAware" (head ++ .field "mainSetImplementation" main ++
        .listField "aggregateSetImplementations" aggregates ++
        .listField "propertyMappings" properties)
    | .operation operation parameters =>
      return Record.tagged "operation" (head ++ .field "operation" (.str operation.text) ++
        .listField "parameters" (parameters.map fun p => .str p.id))
    | .embedded _ => throw (.embeddedAsClassMapping s.id.value)
    | .extension e => throw (.nestedExtension e.type s.id.value)

end Mapping

namespace Graph

/-- Writes a class mapping at the top and notes its slot and the slots in it. One of an extension
type holds no slots. -/
def classMappingNoted (g : Graph) (path : Path) (m : Mapping) (index : Nat) :
    Noting WriteError Json := do
  let s ← (m.slot index).mapError (WriteError.invalidMapping path)
  match s.kind with
  | .extension _ =>
    note index
    g.classMappingJson path m index
  | _ =>
    (m.classMappingNoted g.referencePath (m.slots.length + 1) index).mapError (.invalidMapping path)

def mappingNoted (g : Graph) (path : Path) (m : Mapping) : Noting WriteError Json := do
  let classMappings ← m.top.mapM (g.classMappingNoted path m)
  return Record.toJson
    (.listField "includedMappings" (m.includes.map (MappingDocument.includeJson g.referencePath)) ++
      .listField "classMappings" classMappings ++
      .listField "enumerationMappings" (m.enumerationMappings.map (·.toJson g.referencePath)))

end Graph

namespace Mapping.IsForest

variable {m : Mapping} (hm : m.IsForest) (names : Naming)
include hm

theorem enters_slot {α : Type} {index : Nat} {f : SetImplementation → Noting MappingFault α}
    {g : SetImplementation → Except MappingFault α}
    (h : ∀ s, m.slots[index]? = some s → Enters (f s) (g s) (s.inner.flatMap m.tree)) :
    Enters (note index >>= fun _ => liftM (m.slot index) >>= f) (m.slot index >>= g)
      (m.tree index) := by
  cases hs : m.slots[index]? with
  | none =>
    have hslot : m.slot index = .error (.missingSlot index) := by rw [slot, hs]
    rw [hslot]
    exact .throw _
  | some s =>
    rw [hm.tree_of_slot hs]
    refine (Enters.note index).bind fun _ _ => (Enters.lift (m.slot index)).bind fun t ht => ?_
    have hts : t = s := Option.some.inj ((getElem?_of_slot ht).symm.trans hs)
    rw [hts]
    exact h s hs

omit hm in
theorem enters_properties {f : PropertyMapping → Noting MappingFault Json}
    {g : PropertyMapping → Except MappingFault Json}
    (h : ∀ p, Enters (f p) (g p) (p.embedded?.toList.flatMap m.tree))
    (properties : List PropertyMapping) :
    Enters (properties.mapM f) (properties.mapM g)
      ((properties.filterMap PropertyMapping.embedded?).flatMap m.tree) := by
  rw [List.filterMap_eq_flatMap_toList, List.flatMap_assoc]
  exact .mapM fun p _ => h p

theorem enters_property (fuel : Nat) (p : PropertyMapping) :
    Enters (m.propertyNoted names fuel p) (m.propertyJson names fuel p)
      (p.embedded?.toList.flatMap m.tree) := by
  induction fuel generalizing p with
  | zero => exact .throw _
  | succ fuel ih =>
    rw [propertyNoted]
    cases hp : p.embedded? with
    | none => exact .lift _
    | some index =>
      rw [propertyJson_of_embedded hp, Option.toList_some, List.flatMap_singleton]
      refine hm.enters_slot fun s hs => ?_
      cases hk : s.kind with
      | embedded properties =>
        have hinner : s.inner = properties.filterMap PropertyMapping.embedded? := by
          rw [SetImplementation.inner, SetImplementation.properties, hk, List.append_nil]
        rw [hinner]
        exact (enters_properties ih properties).after (p.embeddedJson names s)
      | _ => exact .throw _

theorem enters_classMapping (fuel index : Nat) :
    Enters (m.classMappingNoted names fuel index) (m.classMappingJson names fuel index)
      (m.tree index) := by
  induction fuel generalizing index with
  | zero => exact .throw _
  | succ fuel ih =>
    have hproperties := enters_properties (hm.enters_property names (m.slots.length + 1))
    rw [classMappingNoted, classMappingJson]
    refine hm.enters_slot fun s hs => ?_
    cases hk : s.kind with
    | pureInstance source filter properties =>
      have hinner : s.inner = properties.filterMap PropertyMapping.embedded? := by
        rw [SetImplementation.inner, SetImplementation.properties, hk, List.append_nil]
      rw [hinner]
      exact (hproperties properties).after _
    | relational distinct table key properties =>
      have hinner : s.inner = properties.filterMap PropertyMapping.embedded? := by
        rw [SetImplementation.inner, SetImplementation.properties, hk, List.append_nil]
      rw [hinner]
      exact (hproperties properties).after _
    | aggregationAware main aggregates properties =>
      have hinner : s.inner = properties.filterMap PropertyMapping.embedded? ++
          main :: aggregates.map Aggregate.slot := by
        rw [SetImplementation.inner, SetImplementation.properties, hk]
      rw [hinner, List.flatMap_append, List.flatMap_cons, List.flatMap_map]
      have haggregates := Enters.mapM fun a (_ : a ∈ aggregates) =>
        (ih a.slot).after fun d => Record.toJson (.field "index" (.ofNat a.index) ++
          .field "aggregateSpecification" a.specification.toJson ++ .field "setImplementation" d)
      refine (haggregates.bind fun as _ => (ih main).bind fun d _ =>
        (hproperties properties).after _).perm ?_
      -- aggregates are written first, then the main slot and what is embedded
      rw [← List.append_assoc]
      exact (List.perm_append_comm.append_right _).trans List.perm_append_comm
    | operation o parameters =>
      have hinner : s.inner = [] := by
        rw [SetImplementation.inner, SetImplementation.properties, hk]
        rfl
      rw [hinner]
      exact .pure _
    | embedded properties => exact .throw _
    | extension e => exact .throw _

theorem enters_topMapping (g : Graph) (path : Path) (index : Nat) :
    Enters (g.classMappingNoted path m index) (g.classMappingJson path m index) (m.tree index) := by
  cases hs : m.slots[index]? with
  | none =>
    have hslot : m.slot index = .error (.missingSlot index) := by rw [slot, hs]
    rw [Graph.classMappingNoted, Graph.classMappingJson, hslot]
    exact .throw _
  | some s =>
    rw [Graph.classMappingNoted, slot_eq_ok hs, mapError_ok, lift_ok_bind]
    cases hk : s.kind with
    | extension e =>
      have htree : m.tree index = [index] := by
        rw [hm.tree_of_slot hs, SetImplementation.inner, SetImplementation.properties, hk]
        rfl
      rw [htree]
      exact (Enters.note index).bind fun _ _ => .lift _
    | _ =>
      have hwrite : g.classMappingJson path m index = (m.classMappingJson g.referencePath
          (m.slots.length + 1) index).mapError (.invalidMapping path) := by
        rw [Graph.classMappingJson, slot_eq_ok hs, mapError_ok, ok_bind]
        simp only [hk]
      rw [hwrite]
      exact (hm.enters_classMapping g.referencePath (m.slots.length + 1) index).mapError _

theorem enters_mapping (g : Graph) (path : Path) :
    Enters (g.mappingNoted path m) (g.mappingJson path m) (List.range m.slots.length) := by
  rw [Graph.mappingNoted, Graph.mappingJson]
  have htop := Enters.mapM fun i (_ : i ∈ m.top) => hm.enters_topMapping g path i
  exact (htop.after _).perm hm.trees_of_top

end Mapping.IsForest

namespace Mapping

/-- What follows the slots down is the same for all fuel above the number of the slot. -/
structure IsGrounded (m : Mapping) : Prop where
  hash : ∀ {fuel i}, i < fuel → m.slotInput fuel i = m.slotInput (i + 1) i
  embedded : ∀ {fuel i}, i < fuel → m.collectEmbedded fuel i = m.collectEmbedded (i + 1) i
  document : ∀ names {fuel i}, i < fuel →
    m.classMappingJson names fuel i = m.classMappingJson names (i + 1) i
  property : ∀ names {fuel i p}, p.embedded? = some i → i < fuel →
    m.propertyJson names (fuel + 1) p = m.propertyJson names (i + 2) p

variable {m m' : Mapping} {f : Rebinding}

theorem IsForest.isGrounded (hm : m.IsForest) : m.IsGrounded where
  hash hi := hm.slotInput_eq hi (Nat.lt_succ_self _)
  embedded hi := hm.collectEmbedded_eq hi (Nat.lt_succ_self _)
  document names _ _ hi := hm.classMappingJson_eq names hi (Nat.lt_succ_self _)
  property names fuel i p hp hi := by
    refine hm.propertyJson_eq names fun n hn => ?_
    rw [hp, Option.some.injEq] at hn
    omega

theorem inner_unwire : m.unwire.slots.map SetImplementation.inner =
    m.slots.map SetImplementation.inner := by
  rw [unwire, List.map_map]
  exact List.map_congr_left fun s _ => congrArg Prod.fst s.shape_unwire

theorem inner_rebind : (m.rebind f).slots.map SetImplementation.inner =
    m.slots.map SetImplementation.inner := by
  rw [rebind, List.map_map]
  exact List.map_congr_left fun s _ => congrArg Prod.fst (SetImplementation.shape_rebind (f := f))

theorem IsForest.restated (hm : m.IsForest) (h : m'.unwire = (m.rebind f).unwire) :
    m'.IsForest := by
  have htop : m'.top = m.top :=
    calc m'.top = m'.unwire.top := rfl
      _ = (m.rebind f).unwire.top := by rw [h]
      _ = m.top := rfl
  have hinner : m'.slots.map SetImplementation.inner = m.slots.map SetImplementation.inner := by
    rw [← inner_unwire, h, inner_unwire, inner_rebind]
  have hlength : m'.slots.length = m.slots.length := by
    simpa using congrArg List.length hinner
  constructor
  · rw [htop, List.flatMap_def, hinner, hlength, ← List.flatMap_def]
    exact hm.once
  · intro i s hs n hn
    have hi := congrArg (·[i]?) hinner
    simp only [List.getElem?_map, hs, Option.map_some] at hi
    obtain ⟨t, ht, hts⟩ := Option.map_eq_some_iff.mp hi.symm
    exact hm.before ht n (hts ▸ hn)

end Mapping

namespace Graph

variable {r : Registry} {ps : List Preset} {path : Path} {j : Json} {m m' : Mapping} {f : Rebinding}

theorem mappingJson_ok (hr : Preset.registry ps = .ok r) (h : Entry.mapping r path j = .ok m)
    (hm : m'.unwire = (m.rebind f).unwire) {g : Graph} (hg : g.registry = r) (q : Path) :
    ∃ document, g.mappingJson q m' = .ok document := by
  subst hg
  let names : Naming := fun l => g.referencePath (f.onLink l)
  have hspelled : m'.spelled g.referencePath = m.spelled names := by
    rw [Mapping.spelled, Mapping.unwire_rebind, hm, ← Mapping.unwire_rebind, Mapping.rebind_rebind]
    rfl
  obtain ⟨document, hwrite, -⟩ := Entry.mapping_restated hr names h
  exact ⟨document, by rw [← mappingJson_spelled (Preset.writesByName hr), hspelled, hwrite]⟩

/-- The set implementations of a mapping that is read form a forest, in which all that follows the
slots down comes to an end, and writing the mapping enters every slot once. -/
theorem slots_form_forest (h : Entry.mapping r path j = .ok m) :
    ∀ (m' : Mapping) (f : Rebinding), m'.unwire = (m.rebind f).unwire →
      m'.IsForest ∧ m'.IsGrounded ∧
        (∀ (g : Graph) (q : Path),
          Enters (g.mappingNoted q m') (g.mappingJson q m') (List.range m'.slots.length)) ∧
        ∀ (ps : List Preset) (g : Graph) (q : Path), Preset.registry ps = .ok r →
          g.registry = r → ∃ document, g.mappingJson q m' = .ok document := by
  intro m' f hm
  have hforest := (Mapping.isForest_of_read h).restated hm
  refine ⟨hforest, hforest.isGrounded, hforest.enters_mapping, ?_⟩
  intro ps g q hr hg
  exact mappingJson_ok hr h hm hg q

/-- An aggregation whose main class mapping and whose own property mappings embed others. -/
def nestingMapping : Mapping where
  slots := [
    { id := .explicit "inner", target := .ofText "B", kind := .embedded [] },
    { id := .explicit "outer", target := .ofText "B"
      kind := .embedded [{ owner := .ofText "B", property := "b", kind := .embedded 0 }] },
    { id := .explicit "main", target := .ofText "A"
      kind := .pureInstance none none
        [{ owner := .ofText "A", property := "b", kind := .embedded 1 }] },
    { id := .explicit "part", target := .ofText "A", kind := .pureInstance none none [] },
    { id := .explicit "own", target := .ofText "B", kind := .embedded [] },
    { id := .explicit "all", target := .ofText "A"
      kind := .aggregationAware 2 [{ index := 0, slot := 3 }]
        [{ owner := .ofText "A", property := "b", kind := .embedded 4 }] }]
  top := [5]

def embeddedJson (owner id : String) (properties : List Json) : Json :=
  .obj [("_type", .str "embeddedPropertyMapping"),
    ("property", .obj [("class", .str owner), ("property", .str "b")]), ("id", .str id),
    ("class", .str "B"), ("propertyMappings", .arr properties)]

def instanceJson (id : String) (properties : List Json) : Json :=
  .obj [("_type", .str "pureInstance"), ("class", .str "A"), ("id", .str id),
    ("propertyMappings", .arr properties)]

def nestingJson : Json :=
  .obj [("classMappings", .arr [.obj [("_type", .str "aggregationAware"), ("class", .str "A"),
    ("id", .str "all"),
    ("mainSetImplementation",
      instanceJson "main" [embeddedJson "A" "outer" [embeddedJson "B" "inner" []]]),
    ("aggregateSetImplementations", .arr [.obj [("index", .ofNat 0),
      ("aggregateSpecification", .obj []), ("setImplementation", instanceJson "part" [])]]),
    ("propertyMappings", .arr [embeddedJson "A" "own" []])]])]

theorem slots_form_forest_nesting :
    Entry.mapping Preset.full ⟨"M"⟩ nestingJson = .ok nestingMapping ∧ nestingMapping.IsForest ∧
      nestingMapping.IsGrounded ∧
      ∀ (g : Graph) (q : Path),
        Enters (g.mappingNoted q nestingMapping) (g.mappingJson q nestingMapping) (List.range 6) ∧
          (g.registry = Preset.full →
            ∃ document, g.mappingJson q nestingMapping = .ok document) := by
  have hread : Entry.mapping Preset.full ⟨"M"⟩ nestingJson = .ok nestingMapping := rfl
  obtain ⟨hforest, hgrounded, henters, hwrites⟩ :=
    slots_form_forest hread nestingMapping (fun _ r => r) rfl
  exact ⟨hread, hforest, hgrounded, fun g q => ⟨henters g q, hwrites _ g q Preset.registry_all⟩⟩

end Graph
end ModelGraph
