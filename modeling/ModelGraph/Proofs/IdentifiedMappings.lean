import ModelGraph.Proofs.Interning
import ModelGraph.Proofs.MappingFields

namespace ModelGraph

open HashInput Mapping

/-- The inputs hashed for a property mapping within a mapping. -/
def PropertyMapping.inputs (nested : Nat → Digest) (within : Nat → List HashInput)
    (p : PropertyMapping) : List HashInput :=
  p.nestedInput nested :: p.hashInput :: p.ownerInput ::
    match p.kind with
    | .pure _ _ => []
    | .relational operation => operation.inputs
    | .embedded index => within index

def ClassMappingExtension.inputs (e : ClassMappingExtension) : List HashInput :=
  e.hashInput ::
    match e with
    | .services pointers => pointers.map (·.store.hashInput)
    | .verbatim _ => []

namespace SetImplementation

/-- The inputs hashed for the kind of a set implementation, property mappings apart. -/
def kindInputs (within : Nat → List HashInput) : SetImplementationKind → List HashInput
  | .relational _ table key _ =>
    (table.toList.flatMap fun t => [t.hashInput]) ++ RelationalOperation.inputsOf key
  | .aggregationAware main aggregates _ =>
    within main ++ aggregates.flatMap fun a => a.specification.hashInput :: within a.slot
  | .extension e => e.inputs
  | _ => []

def inputs (nested : Nat → Digest) (within : Nat → List HashInput) (s : SetImplementation) :
    List HashInput :=
  s.properties.flatMap (PropertyMapping.inputs nested within) ++ kindInputs within s.kind

end SetImplementation

namespace Mapping

def slotInputs (m : Mapping) : (fuel : Nat) → (index : Nat) → List HashInput
  | 0, index => [m.slotInput 0 index]
  | fuel + 1, index =>
    m.slotInput (fuel + 1) index ::
      match m.slots[index]? with
      | none => []
      | some s => s.inputs (fun i => (m.slotInput fuel i).digest) (slotInputs m fuel)

def inputs (path : Path) (m : Mapping) : List HashInput :=
  m.hashInput path :: (m.includes.map Reference.hashInput ++
    (m.top.flatMap (m.slotInputs (m.slots.length + 1)) ++
      m.enumerationMappings.flatMap EnumerationMapping.inputs))

end Mapping

namespace SetImplementationKind

def isCore : SetImplementationKind → Bool
  | .extension _ => false
  | _ => true

def isEmbedded : SetImplementationKind → Bool
  | .embedded _ => true
  | _ => false

def aggregates : SetImplementationKind → List Aggregate
  | .aggregationAware _ aggregates _ => aggregates
  | _ => []

end SetImplementationKind

def SetImplementation.inner (s : SetImplementation) : List Nat :=
  s.properties.filterMap PropertyMapping.embedded? ++
    match s.kind with
    | .aggregationAware main aggregates _ => main :: aggregates.map Aggregate.slot
    | _ => []

/-- What a set implementation in a slot is like where documents are spread over slots: it holds slots
before its own, an embedded one has a written id, and the numbers of aggregates fit a word. -/
structure SetImplementation.Fits (index : Nat) (s : SetImplementation) : Prop where
  inner : ∀ n ∈ s.inner, n < index
  explicit : s.kind.isEmbedded = true → s.id.isInferred = false
  bounded : ∀ a ∈ s.kind.aggregates, a.index < UInt64.size

/-- Every set implementation of the mapping fits its slot. -/
def Mapping.Fits (m : Mapping) : Prop :=
  ∀ ⦃index : Nat⦄ ⦃s : SetImplementation⦄, m.slots[index]? = some s → s.Fits index

/-- The mapping is made of class mappings of the core types. -/
def Mapping.IsCore (m : Mapping) : Prop := ∀ s ∈ m.slots, s.kind.isCore = true

def Mapping.specifications (m : Mapping) : List AggregationSpecification :=
  m.slots.flatMap fun s => s.kind.aggregates.map Aggregate.specification

/-- Specifications with one hash input part their functions at the same place. -/
def Mapping.SameGrouping (m m' : Mapping) : Prop :=
  ∀ s ∈ m.specifications, ∀ t ∈ m'.specifications, s.hashInput = t.hashInput →
    s.groupBy.length = t.groupBy.length

/-- Mappings whose slots can be told apart by digests. -/
structure Mapping.Comparable (m m' : Mapping) : Prop where
  fits : m.Fits
  fits' : m'.Fits
  core : m.IsCore
  core' : m'.IsCore
  grouping : m.SameGrouping m'

variable {m m' : Mapping}

def PropertyAlike (m m' : Mapping) (p q : PropertyMapping) : Prop :=
  ∀ ⦃fuel fuel' j k⦄, m.propertyJson Link.path fuel p = .ok j →
    m'.propertyJson Link.path fuel' q = .ok k → j.SameText k

def SetImplementation.SameHeader (s t : SetImplementation) : Prop :=
  s.id.written = t.id.written ∧ s.target.path.text = t.target.path.text ∧ s.root = t.root

def DocumentAlike (m m' : Mapping) (i i' : Nat) : Prop :=
  ∀ ⦃fuel fuel' j k⦄, m.classMappingJson Link.path fuel i = .ok j →
    m'.classMappingJson Link.path fuel' i' = .ok k → j.SameText k

/-- What stands in slots is written alike, embedded or as a class mapping. -/
structure SlotAlike (m m' : Mapping) (i i' : Nat) : Prop where
  header : ∀ {s t}, m.slots[i]? = some s → m'.slots[i']? = some t → s.SameHeader t
  embedded : ∀ {s t ps qs}, m.slots[i]? = some s → m'.slots[i']? = some t → s.kind = .embedded ps →
    t.kind = .embedded qs → List.Forall₂ (PropertyAlike m m') ps qs
  document : DocumentAlike m m' i i'

theorem forall₂_of_mapM_ok {ε α β : Type} {f g : α → Except ε β} {R : α → α → Prop}
    {S : β → β → Prop} {as as' : List α} {bs bs' : List β} (h : List.Forall₂ R as as')
    (hbs : as.mapM f = .ok bs) (hbs' : as'.mapM g = .ok bs')
    (hR : ∀ {a a' b b'}, R a a' → f a = .ok b → g a' = .ok b' → S b b') :
    List.Forall₂ S bs bs' := by
  induction h generalizing bs bs' with
  | nil =>
    cases hbs
    cases hbs'
    exact .nil
  | cons haa _ ih =>
    rw [List.mapM_cons] at hbs hbs'
    obtain ⟨b, hb, hbs⟩ := bind_eq_ok.mp hbs
    obtain ⟨rest, hrest, hbs⟩ := bind_eq_ok.mp hbs
    obtain ⟨b', hb', hbs'⟩ := bind_eq_ok.mp hbs'
    obtain ⟨rest', hrest', hbs'⟩ := bind_eq_ok.mp hbs'
    cases hbs
    cases hbs'
    exact .cons (hR haa hb hb') (ih hrest hrest')

theorem sameTexts_of_properties {ps qs : List PropertyMapping} {fuel fuel' : Nat}
    {js ks : List Json} (h : List.Forall₂ (PropertyAlike m m') ps qs)
    (hjs : ps.mapM (m.propertyJson Link.path fuel) = .ok js)
    (hks : qs.mapM (m'.propertyJson Link.path fuel') = .ok ks) :
    List.Forall₂ Json.SameText js ks :=
  forall₂_of_mapM_ok h hjs hks fun hpq hj hk => hpq hj hk

theorem Mapping.getElem?_of_slot {index : Nat} {s : SetImplementation} (h : m.slot index = .ok s) :
    m.slots[index]? = some s := by
  rw [slot] at h
  split at h
  next hs =>
    cases h
    exact hs
  · cases h

theorem MappingId.value_of_written {i j : MappingId} (hi : i.isInferred = false)
    (hj : j.isInferred = false) (h : i.written = j.written) : i.value = j.value := by
  simpa [written, hi, hj] using h

theorem SetImplementation.SameHeader.record_eq {s t : SetImplementation} (h : s.SameHeader t) :
    ClassMappingHeader.record Link.path s = ClassMappingHeader.record Link.path t := by
  obtain ⟨hid, htarget, hroot⟩ := h
  rw [ClassMappingHeader.record, ClassMappingHeader.record, hid, Reference.toJson_path htarget, hroot]

theorem explode_inj {o p : Option Bool}
    (h : (o.map fun b => if b then "true" else "false") = p.map fun b => if b then "true" else "false") :
    o = p := by
  match o, p with
  | none, none => rfl
  | some true, some true => rfl
  | some false, some false => rfl
  | some true, some false => exact absurd h (by decide)
  | some false, some true => exact absurd h (by decide)
  | none, some b => cases h
  | some b, none => cases h

namespace PropertyMapping

variable {p q : PropertyMapping} {nested nested' : Nat → Digest}
  {within within' : Nat → List HashInput}

def label : PropertyMappingKind → String
  | .pure _ _ => "pure"
  | .relational _ => "relational"
  | .embedded _ => "embedded"

def fields : PropertyMappingKind → HashInput
  | .pure transform explode =>
    .json transform ++ .optText (explode.map fun b => if b then "true" else "false")
  | .relational operation => .code operation.digest
  | .embedded _ => []

theorem kindInput_eq (k : PropertyMappingKind) : kindInput k = .text (label k) ++ fields k := by
  cases k <;> simp [kindInput, label, fields]

theorem fields_of_hashInput (howner : Apart [p.ownerInput] [q.ownerInput])
    (h : Agree p.hashInput q.hashInput) :
    (p.owner.path.text = q.owner.path.text ∧ p.property = q.property) ∧ p.source = q.source ∧
      p.target = q.target ∧ p.enumerationMapping = q.enumerationMapping ∧
      label p.kind = label q.kind ∧ Agree (fields p.kind) (fields q.kind) := by
  simp only [hashInput, List.append_assoc] at h
  obtain ⟨hdigest, h⟩ := delimits_code h.tail
  obtain ⟨hsource, h⟩ := delimits_optText h
  obtain ⟨htarget, h⟩ := delimits_optText h
  obtain ⟨henumeration, h⟩ := delimits_optText h
  rw [kindInput_eq, kindInput_eq] at h
  have ho := howner.head hdigest
  simp only [ownerInput, List.append_assoc] at ho
  obtain ⟨hpath, ho⟩ := delimits_text ho.tail
  exact ⟨⟨hpath, delimits_text.rel ho⟩, hsource, htarget, henumeration, delimits_text h⟩

def embeddedJson (names : Naming) (p : PropertyMapping) (s : SetImplementation)
    (properties : List Json) : Json :=
  Record.tagged "embeddedPropertyMapping"
    (.field "property" (PropertyMappingDocument.pointerJson names p.owner p.property) ++
      .optField "source" (p.source.map .str) ++ .field "id" (.str s.id.value) ++
      .field "class" (s.target.toJson names) ++ .field "root" (.bool s.root) ++
      .listField "propertyMappings" properties)

theorem propertyJson_embedded {names : Naming} {fuel index : Nat} {j : Json}
    (hp : p.kind = .embedded index) (hj : m.propertyJson names (fuel + 1) p = .ok j) :
    ∃ s ps js, m.slots[index]? = some s ∧ s.kind = .embedded ps ∧
      ps.mapM (m.propertyJson names fuel) = .ok js ∧ j = embeddedJson names p s js := by
  rw [propertyJson] at hj
  simp only [hp] at hj
  obtain ⟨s, hs, hj⟩ := bind_eq_ok.mp hj
  cases hk : s.kind with
  | embedded ps =>
    simp only [hk] at hj
    obtain ⟨js, hjs, hj⟩ := bind_eq_ok.mp hj
    cases hj
    exact ⟨s, ps, js, getElem?_of_slot hs, hk, hjs, rfl⟩
  | _ =>
    simp only [hk] at hj
    cases hj

theorem alike (fits : m.Fits) (fits' : m'.Fits)
    (hslots : ∀ n n', p.kind = .embedded n → q.kind = .embedded n' →
      Apart (within n) (within' n') → nested n = nested' n' → SlotAlike m m' n n')
    (apart : Apart (p.inputs nested within) (q.inputs nested' within'))
    (h : (p.nestedInput nested).digest = (q.nestedInput nested').digest) :
    PropertyAlike m m' p q := by
  have hagree := apart.head h
  simp only [nestedInput, List.append_assoc] at hagree
  obtain ⟨hdigest, hrest⟩ := delimits_code hagree.tail
  have howner : Apart [p.ownerInput] [q.ownerInput] :=
    apart.mono (by simp [inputs]) (by simp [inputs])
  obtain ⟨⟨hpath, hproperty⟩, hsource, htarget, henumeration, hlabel, hfields⟩ :=
    fields_of_hashInput howner (apart.tail.head hdigest)
  have hpointer : PropertyMappingDocument.pointerJson Link.path p.owner p.property =
      PropertyMappingDocument.pointerJson Link.path q.owner q.property := by
    rw [PropertyMappingDocument.pointerJson, PropertyMappingDocument.pointerJson,
      Reference.toJson_path hpath, hproperty]
  have hinner := apart.tail.tail.tail
  intro fuel fuel' j k hj hk
  obtain _ | fuel := fuel
  · cases hj
  obtain _ | fuel' := fuel'
  · cases hk
  cases hp : p.kind with
  | pure transform explode =>
    cases hq : q.kind with
    | pure transform' explode' =>
      rw [hp, hq] at hfields
      obtain ⟨htransform, hexplode⟩ := delimits_json hfields
      have hexplode := explode_inj (delimits_optText.rel hexplode)
      simp only [propertyJson, hp, hq, hpointer, hsource, htarget, henumeration, hexplode] at hj hk
      cases hj
      cases hk
      exact .tagged _ (.append (.append (.refl _) (.field _ htransform)) (.refl _))
    | _ =>
      rw [hp, hq] at hlabel
      exact absurd hlabel (by simp [label])
  | relational operation =>
    cases hq : q.kind with
    | relational operation' =>
      rw [hp, hq] at hfields
      simp only [hp, hq] at hinner
      have hoperation := RelationalOperation.sameText operation operation' hinner
        (delimits_code.rel hfields)
      simp only [propertyJson, hp, hq, hpointer, hsource, htarget, henumeration] at hj hk
      cases hj
      cases hk
      exact .tagged _ (.append (.refl _) (.field _ hoperation))
    | _ =>
      rw [hp, hq] at hlabel
      exact absurd hlabel (by simp [label])
  | embedded n =>
    cases hq : q.kind with
    | embedded n' =>
      simp only [hp, hq] at hinner hrest
      have hslot := hslots n n' hp hq hinner (delimits_code.rel hrest)
      obtain ⟨s, ps, js, hs, hsk, hjs, rfl⟩ := propertyJson_embedded hp hj
      obtain ⟨t, qs, ks, ht, htk, hks, rfl⟩ := propertyJson_embedded hq hk
      obtain ⟨hid, htarget, hroot⟩ := hslot.header hs ht
      have hvalue : s.id.value = t.id.value :=
        MappingId.value_of_written ((fits hs).explicit (by rw [hsk]; rfl))
          ((fits' ht).explicit (by rw [htk]; rfl)) hid
      have hproperties := sameTexts_of_properties (hslot.embedded hs ht hsk htk) hjs hks
      rw [embeddedJson, embeddedJson, hpointer, hsource, hvalue, Reference.toJson_path htarget,
        hroot]
      exact .tagged _ (.append (.refl _) (.listField _ hproperties))
    | _ =>
      rw [hp, hq] at hlabel
      exact absurd hlabel (by simp [label])

end PropertyMapping

namespace SetImplementationKind

def label : SetImplementationKind → String
  | .pureInstance _ _ _ => "pureInstance"
  | .relational _ _ _ _ => "relational"
  | .embedded _ => "embedded"
  | .aggregationAware _ _ _ => "aggregationAware"
  | .operation _ _ => "operation"
  | .extension e => e.type

def propertyDigests (nested : Nat → Digest) (ps : List PropertyMapping) : List Digest :=
  ps.map fun p => (p.nestedInput nested).digest

def fields (nested : Nat → Digest) : SetImplementationKind → HashInput
  | .pureInstance source filter properties =>
    .optText (source.map (·.path.text)) ++ (.optional .json filter ++
      .codes (propertyDigests nested properties))
  | .relational distinct table key properties =>
    .flag distinct ++ (.optCode (table.map TablePointer.digest) ++
      (.codes (key.map RelationalOperation.digest) ++ .codes (propertyDigests nested properties)))
  | .embedded properties => .codes (propertyDigests nested properties)
  | .aggregationAware main aggregates properties =>
    .code (nested main) ++ (aggregates.flatMap (Aggregate.nestedInput nested) ++
      .codes (propertyDigests nested properties))
  | .operation o parameters => .text o.text ++ .texts (parameters.map OperationParameter.id)
  | .extension e => .code e.digest

theorem nestedInput_eq (nested : Nat → Digest) (k : SetImplementationKind) :
    k.nestedInput nested = .text k.label ++ k.fields nested := by
  cases k <;> simp [nestedInput, label, fields, propertyDigests]

end SetImplementationKind

theorem Operation.text_inj {o o' : Operation} (h : o.text = o'.text) : o = o' := by
  cases o <;> cases o' <;> first | rfl | exact absurd h (by decide)

theorem RelationalOperation.digests_eq_map (os : List RelationalOperation) :
    digests os = os.map digest := by
  induction os with
  | nil => rfl
  | cons o os ih => rw [digests, ih]; rfl

/-- No digest of the inputs opens with the length of a digest. -/
def Unmarked (xs : List HashInput) : Prop := ∀ x ∈ xs, ¬word 32 <+: x.digest.bytes.toList

theorem Unmarked.mono {xs ys : List HashInput} (h : Unmarked ys) (hs : xs ⊆ ys) : Unmarked xs :=
  fun x hx => h x (hs hx)

theorem Mapping.fields_of_slotInput {i i' fuel fuel' : Nat} {s t : SetImplementation}
    (hs : m.slots[i]? = some s) (ht : m'.slots[i']? = some t)
    (h : Agree (m.slotInput (fuel + 1) i) (m'.slotInput (fuel' + 1) i')) :
    s.SameHeader t ∧ s.kind.label = t.kind.label ∧
      Agree (s.kind.fields fun n => (m.slotInput fuel n).digest)
        (t.kind.fields fun n => (m'.slotInput fuel' n).digest) := by
  rw [slotInput_succ, slotInput_succ, hs, ht] at h
  simp only [SetImplementationKind.nestedInput_eq, List.append_assoc] at h
  obtain ⟨hid, h⟩ := delimits_optText h.tail
  obtain ⟨htarget, h⟩ := delimits_text h
  obtain ⟨hroot, h⟩ := delimits_flag h
  exact ⟨⟨hid, htarget, hroot⟩, delimits_text h⟩

def AggregateAlike (m m' : Mapping) (a b : Aggregate) : Prop :=
  a.index = b.index ∧ a.specification.toJson.SameText b.specification.toJson ∧
    DocumentAlike m m' a.slot b.slot

theorem DocumentAlike.embedded {i i' : Nat} {s : SetImplementation} {ps : List PropertyMapping}
    (hs : m.slots[i]? = some s) (hsk : s.kind = .embedded ps) : DocumentAlike m m' i i' := by
  intro fuel fuel' j k hj hk
  obtain _ | fuel := fuel
  · cases hj
  rw [classMappingJson, slot_eq_ok hs] at hj
  simp only [ok_bind, hsk] at hj
  cases hj

section Kinds

variable {i i' : Nat} {s t : SetImplementation} (hs : m.slots[i]? = some s)
  (ht : m'.slots[i']? = some t) (header : s.SameHeader t) {ps qs : List PropertyMapping}
include hs ht header

theorem DocumentAlike.pureInstance {source source' : Option (Reference .class)}
    {filter filter' : Option Json} (hsk : s.kind = .pureInstance source filter ps)
    (htk : t.kind = .pureInstance source' filter' qs)
    (hsource : source.map (·.path.text) = source'.map (·.path.text))
    (hfilter : Option.Rel Json.SameText filter filter')
    (hps : List.Forall₂ (PropertyAlike m m') ps qs) : DocumentAlike m m' i i' := by
  intro fuel fuel' j k hj hk
  obtain _ | fuel := fuel
  · cases hj
  obtain _ | fuel' := fuel'
  · cases hk
  rw [classMappingJson, slot_eq_ok hs] at hj
  rw [classMappingJson, slot_eq_ok ht] at hk
  simp only [ok_bind, hsk] at hj
  simp only [ok_bind, htk] at hk
  obtain ⟨js, hjs, hj⟩ := bind_eq_ok.mp hj
  obtain ⟨ks, hks, hk⟩ := bind_eq_ok.mp hk
  have hs : source.map (Reference.toJson Link.path) = source'.map (Reference.toJson Link.path) := by
    have htexts := congrArg (Option.map Json.str) hsource
    rw [Option.map_map, Option.map_map] at htexts
    exact htexts
  cases hj
  cases hk
  rw [header.record_eq, hs]
  exact .tagged _ (.append (.append (.refl _) (.optField _ hfilter))
    (.listField _ (sameTexts_of_properties hps hjs hks)))

theorem DocumentAlike.relational {distinct distinct' : Bool} {table table' : Option TablePointer}
    {key key' : List RelationalOperation} (hsk : s.kind = .relational distinct table key ps)
    (htk : t.kind = .relational distinct' table' key' qs) (hdistinct : distinct = distinct')
    (htable : table.map (·.toJson Link.path) = table'.map (·.toJson Link.path))
    (hkey : List.Forall₂ Json.SameText (RelationalOperation.toJsons Link.path key)
      (RelationalOperation.toJsons Link.path key'))
    (hps : List.Forall₂ (PropertyAlike m m') ps qs) : DocumentAlike m m' i i' := by
  intro fuel fuel' j k hj hk
  obtain _ | fuel := fuel
  · cases hj
  obtain _ | fuel' := fuel'
  · cases hk
  rw [classMappingJson, slot_eq_ok hs] at hj
  rw [classMappingJson, slot_eq_ok ht] at hk
  simp only [ok_bind, hsk] at hj
  simp only [ok_bind, htk] at hk
  obtain ⟨js, hjs, hj⟩ := bind_eq_ok.mp hj
  obtain ⟨ks, hks, hk⟩ := bind_eq_ok.mp hk
  cases hj
  cases hk
  rw [header.record_eq, hdistinct, htable]
  exact .tagged _ (.append (.append (.refl _) (.listField _ hkey))
    (.listField _ (sameTexts_of_properties hps hjs hks)))

theorem DocumentAlike.operation {o o' : Operation} {parameters parameters' : List OperationParameter}
    (hsk : s.kind = .operation o parameters) (htk : t.kind = .operation o' parameters')
    (ho : o = o')
    (hparameters : parameters.map OperationParameter.id = parameters'.map OperationParameter.id) :
    DocumentAlike m m' i i' := by
  intro fuel fuel' j k hj hk
  obtain _ | fuel := fuel
  · cases hj
  obtain _ | fuel' := fuel'
  · cases hk
  rw [classMappingJson, slot_eq_ok hs] at hj
  rw [classMappingJson, slot_eq_ok ht] at hk
  simp only [ok_bind, hsk] at hj
  simp only [ok_bind, htk] at hk
  have hids : parameters.map (fun p => Json.str p.id) = parameters'.map fun p => Json.str p.id := by
    have htexts := congrArg (List.map Json.str) hparameters
    rwa [List.map_map, List.map_map] at htexts
  cases hj
  cases hk
  rw [header.record_eq, ho, hids]
  exact .refl _

theorem DocumentAlike.aggregationAware {main main' : Nat} {as bs : List Aggregate}
    (hsk : s.kind = .aggregationAware main as ps) (htk : t.kind = .aggregationAware main' bs qs)
    (hmain : DocumentAlike m m' main main') (has : List.Forall₂ (AggregateAlike m m') as bs)
    (hps : List.Forall₂ (PropertyAlike m m') ps qs) : DocumentAlike m m' i i' := by
  intro fuel fuel' j k hj hk
  obtain _ | fuel := fuel
  · cases hj
  obtain _ | fuel' := fuel'
  · cases hk
  rw [ClassMappingDocument.classMappingJson_of_aggregation hs hsk] at hj
  rw [ClassMappingDocument.classMappingJson_of_aggregation ht htk] at hk
  obtain ⟨aggregates, haggregates, hj⟩ := bind_eq_ok.mp hj
  obtain ⟨mainJson, hmainJson, hj⟩ := bind_eq_ok.mp hj
  obtain ⟨js, hjs, hj⟩ := bind_eq_ok.mp hj
  obtain ⟨aggregates', haggregates', hk⟩ := bind_eq_ok.mp hk
  obtain ⟨mainJson', hmainJson', hk⟩ := bind_eq_ok.mp hk
  obtain ⟨ks, hks, hk⟩ := bind_eq_ok.mp hk
  have hall : List.Forall₂ Json.SameText aggregates aggregates' := by
    refine forall₂_of_mapM_ok has haggregates haggregates' ?_
    intro a b j k hab hj hk
    obtain ⟨hindex, hspecification, hdocument⟩ := hab
    obtain ⟨d, hd, hj⟩ := bind_eq_ok.mp hj
    obtain ⟨e, he, hk⟩ := bind_eq_ok.mp hk
    cases hj
    cases hk
    rw [hindex]
    exact .record (.append (.append (.refl _) (.field _ hspecification))
      (.field _ (hdocument hd he)))
  cases hj
  cases hk
  rw [header.record_eq]
  exact .tagged _ (.append (.append (.append (.refl _) (.field _ (hmain hmainJson hmainJson')))
    (.listField _ hall)) (.listField _ (sameTexts_of_properties hps hjs hks)))

end Kinds

namespace SetImplementation

variable {nested : Nat → Digest} {within : Nat → List HashInput} {s : SetImplementation}

theorem mem_inner_of_embedded {p : PropertyMapping} {n : Nat} (hp : p ∈ s.properties)
    (hk : p.kind = .embedded n) : n ∈ s.inner :=
  List.mem_append_left _ (List.mem_filterMap.mpr ⟨p, hp, by simp [PropertyMapping.embedded?, hk]⟩)

theorem within_subset_of_embedded {p : PropertyMapping} {n : Nat} (hp : p ∈ s.properties)
    (hk : p.kind = .embedded n) : within n ⊆ s.inputs nested within := by
  intro x hx
  refine List.mem_append_left _ (List.mem_flatMap.mpr ⟨p, hp, ?_⟩)
  simp [PropertyMapping.inputs, hk, hx]

theorem unmarked_propertyDigests (h : Unmarked (s.inputs nested within)) :
    ∀ d ∈ SetImplementationKind.propertyDigests nested s.properties,
      ¬word 32 <+: d.bytes.toList := by
  intro d hd
  obtain ⟨p, hp, rfl⟩ := List.mem_map.mp hd
  apply h
  exact List.mem_append_left _ (List.mem_flatMap.mpr ⟨p, hp, List.mem_cons_self⟩)

end SetImplementation

theorem SlotAlike.of_present {i i' : Nat} (h : ∀ s t, m.slots[i]? = some s →
    m'.slots[i']? = some t → SlotAlike m m' i i') : SlotAlike m m' i i' where
  header hs ht := (h _ _ hs ht).header hs ht
  embedded hs ht := (h _ _ hs ht).embedded hs ht
  document := by
    have hslot : ∀ {m : Mapping} {fuel i : Nat} {j : Json},
        m.classMappingJson Link.path fuel i = .ok j → ∃ s, m.slots[i]? = some s := by
      intro m fuel i j hj
      obtain _ | fuel := fuel
      · cases hj
      rw [classMappingJson] at hj
      obtain ⟨s, hs, -⟩ := bind_eq_ok.mp hj
      exact ⟨s, getElem?_of_slot hs⟩
    intro fuel fuel' j k hj hk
    obtain ⟨s, hs⟩ := hslot hj
    obtain ⟨t, ht⟩ := hslot hk
    exact (h s t hs ht).document hj hk

section Step

variable {nested nested' : Nat → Digest} {within within' : Nat → List HashInput}
  {s t : SetImplementation}

theorem PropertyMapping.forall₂_alike (c : m.Comparable m')
    (apart : Apart (s.inputs nested within) (t.inputs nested' within'))
    (hinner : ∀ n ∈ s.inner, ∀ n' ∈ t.inner, within n ⊆ s.inputs nested within →
      within' n' ⊆ t.inputs nested' within' → nested n = nested' n' → SlotAlike m m' n n')
    (h : SetImplementationKind.propertyDigests nested s.properties =
      SetImplementationKind.propertyDigests nested' t.properties) :
    List.Forall₂ (PropertyAlike m m') s.properties t.properties := by
  refine apart.left.forall₂ h fun p hp q hq hpq hd => ?_
  refine PropertyMapping.alike c.fits c.fits' (fun n n' hk hk' _ hn => ?_) hpq hd
  exact hinner n (SetImplementation.mem_inner_of_embedded hp hk)
    n' (SetImplementation.mem_inner_of_embedded hq hk')
    (SetImplementation.within_subset_of_embedded hp hk)
    (SetImplementation.within_subset_of_embedded hq hk') hn

theorem mem_specifications {i : Nat} {a : Aggregate} (hs : m.slots[i]? = some s)
    (ha : a ∈ s.kind.aggregates) : a.specification ∈ m.specifications :=
  List.mem_flatMap.mpr ⟨s, List.mem_of_getElem? hs, List.mem_map_of_mem ha⟩

theorem Aggregate.forall₂_alike (c : m.Comparable m') {i i' main main' : Nat}
    {as bs : List Aggregate} {ps qs : List PropertyMapping} (hs : m.slots[i]? = some s)
    (ht : m'.slots[i']? = some t) (hsk : s.kind = .aggregationAware main as ps)
    (htk : t.kind = .aggregationAware main' bs qs)
    (apart : Apart (s.inputs nested within) (t.inputs nested' within'))
    (hinner : ∀ n ∈ s.inner, ∀ n' ∈ t.inner, within n ⊆ s.inputs nested within →
      within' n' ⊆ t.inputs nested' within' → nested n = nested' n' → SlotAlike m m' n n')
    (h : List.Forall₂ (SameDigests nested nested') as bs) :
    List.Forall₂ (AggregateAlike m m') as bs := by
  have hkind := apart.right
  simp only [hsk, htk, SetImplementation.kindInputs] at hkind
  refine hkind.right.related h fun a ha b hb hab hd => ?_
  obtain ⟨hindex, hspecification, hnested⟩ := hd
  have ha' : a ∈ s.kind.aggregates := by rw [hsk]; exact ha
  have hb' : b ∈ t.kind.aggregates := by rw [htk]; exact hb
  have hinput := hab.head hspecification
  have hlength := c.grouping _ (mem_specifications hs ha') _ (mem_specifications ht hb') hinput.2
  have hslot : SlotAlike m m' a.slot b.slot := by
    refine hinner a.slot ?_ b.slot ?_ ?_ ?_ hnested
    · simp only [SetImplementation.inner, hsk]
      exact List.mem_append_right _ (List.mem_cons_of_mem _ (List.mem_map_of_mem ha))
    · simp only [SetImplementation.inner, htk]
      exact List.mem_append_right _ (List.mem_cons_of_mem _ (List.mem_map_of_mem hb))
    · intro x hx
      simp only [SetImplementation.inputs, hsk, SetImplementation.kindInputs]
      refine List.mem_append_right _ (List.mem_append_right _ (List.mem_flatMap.mpr ⟨a, ha, ?_⟩))
      exact List.mem_cons_of_mem _ hx
    · intro x hx
      simp only [SetImplementation.inputs, htk, SetImplementation.kindInputs]
      refine List.mem_append_right _ (List.mem_append_right _ (List.mem_flatMap.mpr ⟨b, hb, ?_⟩))
      exact List.mem_cons_of_mem _ hx
  have hbound := (c.fits hs).bounded a ha'
  have hbound' := (c.fits' ht).bounded b hb'
  exact ⟨eq_of_natCast_mod hbound hbound' hindex, AggregationSpecification.sameText hlength hinput, hslot.document⟩

theorem SlotAlike.step (c : m.Comparable m') {i i' : Nat} (hs : m.slots[i]? = some s)
    (ht : m'.slots[i']? = some t) (header : s.SameHeader t) (hlabel : s.kind.label = t.kind.label)
    (hfields : Agree (s.kind.fields nested) (t.kind.fields nested'))
    (apart : Apart (s.inputs nested within) (t.inputs nested' within'))
    (hu : Unmarked (s.inputs nested within)) (hu' : Unmarked (t.inputs nested' within'))
    (hinner : ∀ n ∈ s.inner, ∀ n' ∈ t.inner, within n ⊆ s.inputs nested within →
      within' n' ⊆ t.inputs nested' within' → nested n = nested' n' → SlotAlike m m' n n') :
    SlotAlike m m' i i' := by
  have hcore := c.core s (List.mem_of_getElem? hs)
  have hcore' := c.core' t (List.mem_of_getElem? ht)
  have hproperties := PropertyMapping.forall₂_alike c apart hinner
  have hmarks := SetImplementation.unmarked_propertyDigests hu
  have hmarks' := SetImplementation.unmarked_propertyDigests hu'
  have hkind := apart.right
  refine ⟨?header, ?embedded, ?document⟩
  case header =>
    intro s' t' hs' ht'
    rw [hs, Option.some.injEq] at hs'
    rw [ht, Option.some.injEq] at ht'
    exact hs' ▸ ht' ▸ header
  case embedded =>
    intro s' t' ps qs hs' ht' hsk htk
    rw [hs, Option.some.injEq] at hs'
    rw [ht, Option.some.injEq] at ht'
    rw [← hs'] at hsk
    rw [← ht'] at htk
    simp only [SetImplementation.properties, hsk, htk] at hproperties
    simp only [hsk, htk, SetImplementationKind.fields] at hfields
    exact hproperties (delimits_codes.rel hfields)
  case document =>
    cases hsk : s.kind with
    | pureInstance source filter ps =>
      cases htk : t.kind with
      | pureInstance source' filter' qs =>
        simp only [SetImplementation.properties, hsk, htk] at hproperties
        simp only [hsk, htk, SetImplementationKind.fields] at hfields
        obtain ⟨hsource, hfields⟩ := delimits_optText hfields
        obtain ⟨hfilter, hfields⟩ := delimits_json.optional hfields
        exact .pureInstance hs ht header hsk htk hsource hfilter
          (hproperties (delimits_codes.rel hfields))
      | extension e => simp [htk, SetImplementationKind.isCore] at hcore'
      | _ => simp [hsk, htk, SetImplementationKind.label] at hlabel
    | relational distinct table key ps =>
      cases htk : t.kind with
      | relational distinct' table' key' qs =>
        simp only [SetImplementation.properties, hsk, htk] at hproperties
        simp only [hsk, htk, SetImplementationKind.fields] at hfields
        simp only [hsk, htk, SetImplementation.kindInputs] at hkind
        obtain ⟨hdistinct, hfields⟩ := delimits_flag hfields
        obtain ⟨htable, hfields⟩ := delimits_optCode hfields
        obtain ⟨hkey, hfields⟩ := delimits_codes hfields
        rw [← RelationalOperation.digests_eq_map, ← RelationalOperation.digests_eq_map] at hkey
        have htables := hkind.left.option (optionRel_of_map htable)
          fun _ _ h hd => TablePointer.toJson_eq (h.head hd)
        exact .relational hs ht header hsk htk hdistinct
          (eq_of_optionRel (optionRel_map htables))
          (RelationalOperation.sameTexts key key' hkind.right hkey)
          (hproperties (delimits_codes.rel hfields))
      | extension e => simp [htk, SetImplementationKind.isCore] at hcore'
      | _ => simp [hsk, htk, SetImplementationKind.label] at hlabel
    | embedded ps => exact .embedded hs hsk
    | aggregationAware main as ps =>
      cases htk : t.kind with
      | aggregationAware main' bs qs =>
        simp only [SetImplementation.properties, hsk, htk] at hproperties hmarks hmarks'
        simp only [hsk, htk, SetImplementationKind.fields] at hfields
        simp only [hsk, htk, SetImplementation.kindInputs] at hkind
        obtain ⟨hmain, hfields⟩ := delimits_code hfields
        obtain ⟨haggregates, hdigests⟩ := Aggregate.aggregates_codes hmarks hmarks' hfields
        have hmainSlot : SlotAlike m m' main main' := by
          refine hinner main ?_ main' ?_ ?_ ?_ hmain
          · simp [SetImplementation.inner, hsk]
          · simp [SetImplementation.inner, htk]
          · intro x hx
            simp [SetImplementation.inputs, SetImplementation.kindInputs, hsk, hx]
          · intro x hx
            simp [SetImplementation.inputs, SetImplementation.kindInputs, htk, hx]
        exact .aggregationAware hs ht header hsk htk hmainSlot.document
          (Aggregate.forall₂_alike c hs ht hsk htk apart hinner haggregates) (hproperties hdigests)
      | extension e => simp [htk, SetImplementationKind.isCore] at hcore'
      | _ => simp [hsk, htk, SetImplementationKind.label] at hlabel
    | operation o parameters =>
      cases htk : t.kind with
      | operation o' parameters' =>
        simp only [hsk, htk, SetImplementationKind.fields] at hfields
        obtain ⟨ho, hfields⟩ := delimits_text hfields
        exact .operation hs ht header hsk htk (Operation.text_inj ho) (delimits_texts.rel hfields)
      | extension e => simp [htk, SetImplementationKind.isCore] at hcore'
      | _ => simp [hsk, htk, SetImplementationKind.label] at hlabel
    | extension e => simp [hsk, SetImplementationKind.isCore] at hcore

end Step

theorem slotAlike (c : m.Comparable m') {index index' fuel fuel' : Nat} (hf : index < fuel)
    (hf' : index' < fuel') (apart : Apart (m.slotInputs fuel index) (m'.slotInputs fuel' index'))
    (hu : Unmarked (m.slotInputs fuel index)) (hu' : Unmarked (m'.slotInputs fuel' index'))
    (h : (m.slotInput fuel index).digest = (m'.slotInput fuel' index').digest) :
    SlotAlike m m' index index' := by
  induction index using Nat.strongRecOn generalizing index' fuel fuel' with
  | ind index ih =>
  obtain ⟨fuel, rfl⟩ := Nat.exists_eq_add_one_of_ne_zero (Nat.ne_of_gt (Nat.zero_lt_of_lt hf))
  obtain ⟨fuel', rfl⟩ := Nat.exists_eq_add_one_of_ne_zero (Nat.ne_of_gt (Nat.zero_lt_of_lt hf'))
  refine .of_present fun s t hs ht => ?_
  rw [slotInputs, slotInputs] at apart
  rw [slotInputs] at hu hu'
  obtain ⟨header, hlabel, hfields⟩ := fields_of_slotInput hs ht (apart.head h)
  have hinputs := apart.tail
  have hu := hu.mono (List.subset_cons_self _ _)
  have hu' := hu'.mono (List.subset_cons_self _ _)
  simp only [hs, ht] at hinputs hu hu'
  refine .step c hs ht header hlabel hfields hinputs hu hu' fun n hn n' hn' hsub hsub' hd => ?_
  have hlt := (c.fits hs).inner n hn
  have hlt' := (c.fits' ht).inner n' hn'
  exact ih n hlt (by omega) (by omega) (hinputs.mono hsub hsub') (hu.mono hsub) (hu'.mono hsub') hd

namespace Graph

variable {r r' : Registry} {path path' : Path}

theorem classMappingJson_core (hcore : m.IsCore) {index : Nat} {j : Json}
    (hj : (bare r).classMappingJson path m index = .ok j) :
    index < m.slots.length ∧
      m.classMappingJson Link.path (m.slots.length + 1) index = .ok j := by
  rw [classMappingJson] at hj
  obtain ⟨s, hs, hj⟩ := bind_eq_ok.mp hj
  have hs := getElem?_of_slot (ok_of_mapError hs)
  have hk := hcore s (List.mem_of_getElem? hs)
  refine ⟨(List.getElem?_eq_some_iff.mp hs).1, ?_⟩
  cases hsk : s.kind with
  | extension e => simp [hsk, SetImplementationKind.isCore] at hk
  | _ =>
    simp only [hsk, referencePath_bare] at hj
    exact ok_of_mapError hj

theorem mappingJson_sameText (c : m.Comparable m')
    (hb : ∀ e ∈ m.enumerationMappings, e.IsBounded)
    (hb' : ∀ e ∈ m'.enumerationMappings, e.IsBounded)
    (apart : Apart (m.inputs path) (m'.inputs path')) (hu : Unmarked (m.inputs path))
    (hu' : Unmarked (m'.inputs path')) (h : Agree (m.hashInput path) (m'.hashInput path'))
    {j k : Json} (hj : (bare r).mappingJson path m = .ok j)
    (hk : (bare r').mappingJson path' m' = .ok k) : path = path' ∧ j.SameText k := by
  simp only [Mapping.hashInput, List.append_assoc] at h
  obtain ⟨hpath, h⟩ := delimits_text h.tail
  obtain ⟨hincludes, h⟩ := delimits_codes h
  obtain ⟨htop, h⟩ := delimits_codes h
  have hi : m.includes.map (MappingDocument.includeJson Link.path) =
      m'.includes.map (MappingDocument.includeJson Link.path) := by
    have hpaths := Reference.toJsons_path apart.tail.left hincludes
    have htagged := congrArg (List.map fun j =>
      Record.tagged "mappingIncludeMapping" (.field "includedMapping" j)) hpaths
    rwa [List.map_map, List.map_map] at htagged
  have he : m.enumerationMappings.map (·.toJson Link.path) =
      m'.enumerationMappings.map (·.toJson Link.path) :=
    map_eq_of_forall₂ (apart.tail.right.right.forall₂ (delimits_codes.rel h)
      fun e he f hf => EnumerationMapping.toJson_eq (hb e he) (hb' f hf))
  have hinputs : ∀ {m : Mapping} {path : Path} {i : Nat}, i ∈ m.top →
      m.slotInputs (m.slots.length + 1) i ⊆ m.inputs path := by
    intro m path i hi x hx
    refine List.mem_cons_of_mem _ (List.mem_append_right _ (List.mem_append_left _ ?_))
    exact List.mem_flatMap.mpr ⟨i, hi, hx⟩
  have hslots : List.Forall₂ (fun i i' => i < m.slots.length → i' < m'.slots.length →
      DocumentAlike m m' i i') m.top m'.top := by
    refine apart.tail.right.left.forall₂ htop fun i hi i' hi' hii hd hlt hlt' => ?_
    exact (slotAlike c (Nat.lt_succ_of_lt hlt) (Nat.lt_succ_of_lt hlt') hii
      (hu.mono (hinputs hi)) (hu'.mono (hinputs hi')) hd).document
  rw [mappingJson, referencePath_bare] at hj hk
  obtain ⟨js, hjs, hj⟩ := bind_eq_ok.mp hj
  obtain ⟨ks, hks, hk⟩ := bind_eq_ok.mp hk
  have hdocuments : List.Forall₂ Json.SameText js ks := by
    refine forall₂_of_mapM_ok hslots hjs hks fun hii hj hk => ?_
    obtain ⟨hlt, hj⟩ := classMappingJson_core c.core hj
    obtain ⟨hlt', hk⟩ := classMappingJson_core c.core' hk
    exact hii hlt hlt' hj hk
  cases hj
  cases hk
  rw [hi, he]
  exact ⟨Path.ext hpath,
    .record (.append (.append (.refl _) (.listField _ hdocuments)) (.refl _))⟩

end Graph
end ModelGraph
