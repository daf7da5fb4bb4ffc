import ModelGraph.Proofs.RuntimeDocuments
import ModelGraph.Proofs.WrittenMappings
import ModelGraph.Proofs.PathAlgebra

namespace ModelGraph

open Record Json

def Body.standard : Body → Body
  | .database d => .database d.standard
  | b => b

/-- The body as it is found once it is read: column types in the standard shape, ids as they are
found under the paths of what is mapped, and stores for which their paths stand. -/
def Body.renewed : Body → Body
  | .database d => .database d.standard
  | .mapping m => .mapping m.renewed
  | .connection c => .connection c.settled
  | .runtime r => .runtime r.settled
  | .service s => .service s.settled
  | b => b

def Body.reread (names : Naming) (b : Body) : Body := (b.rebind (repath names)).renewed

def Element.placed (p : Path) (b : Body) : Element := { name := p.name, path := p, body := b }

theorem some_of_map_some {ε α : Type} {x : Except ε α} {a : α} (h : x.map some = .ok (some a)) :
    x = .ok a := by
  obtain ⟨b, hb, he⟩ := map_eq_ok.mp h
  cases he
  exact hb

namespace Graph

variable {r : Registry} {e : Element} {classifier type : String} {s : Record} {w : Entity}

/-- The members of the content of an entity, its header last. -/
def contentRecord (e : Element) (type : String) (s : Record) : Record :=
  s ++ (field "_type" (.str type) ++ (field "name" (.str e.name) ++
    optField "package" (e.path.package?.map fun p => .str p.text)))

theorem entity_toJson (e : Element) (classifier type : String) (s : Record) :
    entity e classifier type s.toJson =
      .ok ⟨e.path, classifier, (contentRecord e type s).toJson⟩ := by
  have hm : sortMembers s ++ [("_type", .str type), ("name", .str e.name)] ++
      optField "package" (e.path.package?.map fun p => .str p.text) =
        sortMembers s ++ (field "_type" (.str type) ++ (field "name" (.str e.name) ++
          optField "package" (e.path.package?.map fun p => .str p.text))) := by
    simp [field]
  rw [Record.toJson, object, entity, hm, object, sortMembers_sorted_append]
  rfl

theorem document_entity (hs : Within (· ∉ Entity.headerMembers) s) :
    Entity.document ⟨e.path, classifier, (contentRecord e type s).toJson⟩ = s.toJson := by
  have hfilter : (contentRecord e type s).filter
      (fun m => !Entity.headerMembers.contains m.1) = s := by
    have hkeep : s.filter (fun m => !Entity.headerMembers.contains m.1) = s := by
      apply List.filter_eq_self.mpr
      intro m hm
      simpa using hs m hm
    have hdrop : (optField "package" (e.path.package?.map fun p => .str p.text)).filter
        (fun m => !Entity.headerMembers.contains m.1) = [] := by
      cases e.path.package? <;> simp [optField, Entity.headerMembers]
    rw [contentRecord, List.filter_append, List.filter_append, List.filter_append, hkeep, hdrop]
    simp [field, Entity.headerMembers]
  rw [Entity.document, Record.toJson, object, without,
    filter_sortMembers fun k => !Entity.headerMembers.contains k, hfilter]
  rfl

theorem lookup_contentRecord (hs : Within (· ∉ Entity.headerMembers) s) {key : String}
    (hk : key ∈ Entity.headerMembers) :
    (sortMembers (contentRecord e type s)).lookup key =
      if key = "_type" then some (.str type)
      else if key = "name" then some (.str e.name)
      else e.path.package?.map fun p => .str p.text := by
  have hnone := lookup_of_within hs (not_not_intro hk)
  simp only [Entity.headerMembers, List.mem_cons, List.not_mem_nil, or_false] at hk
  rcases hk with rfl | rfl | rfl <;> simp [contentRecord, hnone]

theorem headerFault?_entity {kind : EntryKind} (hs : Within (· ∉ Entity.headerMembers) s)
    (hname : e.name = e.path.name) (hp : e.path.fault? = none) :
    Entry.headerFault? ⟨e.path, classifier, (contentRecord e kind.type s).toJson⟩ kind = none := by
  have htype : ((contentRecord e kind.type s).toJson.member? "_type").bind text? =
      some kind.type := by
    rw [Record.toJson, object, member?, lookup_contentRecord hs (by simp [Entity.headerMembers])]
    rfl
  have hn : ((contentRecord e kind.type s).toJson.member? "name").bind text? =
      some e.path.name := by
    rw [Record.toJson, object, member?, lookup_contentRecord hs (by simp [Entity.headerMembers]),
      hname]
    rfl
  have hpackage : (((contentRecord e kind.type s).toJson.member? "package").bind text?).filter
      (fun p => !p.isEmpty) = e.path.package?.map Path.text := by
    rw [Record.toJson, object, member?, lookup_contentRecord hs (by simp [Entity.headerMembers])]
    simp only [if_neg (show ¬"package" = "_type" by decide),
      if_neg (show ¬"package" = "name" by decide)]
    cases hq : e.path.package? with
    | none => rfl
    | some q =>
      have hne : q.text.isEmpty = false := by
        simpa using Path.text_ne_empty (Path.fault?_package hp hq)
      simp [hne, Option.filter]
  rw [Entry.headerFault?]
  simp only [Entity.type?, Entry.name?, Entry.package?, htype, hn, hpackage]
  simp [Record.toJson, object, isObject]

end Graph

open ModelGraph.Graph

theorem Classifier.path_of_ofPath? {path : String} {c : Classifier} (h : ofPath? path = some c) :
    c.path = path := by
  simpa using List.find?_some h

/-- What is read from the documents of a classifier is written, under any naming, as a document
from which it is read again. -/
def Restates (r : Registry) (read : Path → Json → Except Diagnostic Body)
    (classifier type : String) : Prop :=
  ∀ {p j b}, read p j = .ok b → ∀ names q w,
    (bare r).entity? (.placed q (b.spelled names)) = .ok (some w) →
      ∃ s : Record, Within (· ∉ Entity.headerMembers) s ∧
        entity (.placed q (b.spelled names)) classifier type s.toJson = .ok w ∧
        read q s.toJson = .ok (b.reread names)

theorem isDocument_toJson {s : Record} (h : Within (· ∉ Entity.headerMembers) s) :
    IsDocument s.toJson :=
  ⟨s, rfl, h⟩

/-- How the elements of a classifier are read and written, where reading cannot fail in a way of its
own and writing cannot fail at all. -/
structure Plain (r : Registry) (c : Classifier) {α : Type} (read : Json → Option α)
    (write : Naming → α → Json) (body : α → Body) : Prop where
  writes : ∀ names q x, (bare r).entity? (.placed q ((body x).spelled names)) =
    (coreEntity (.placed q ((body x).spelled names)) c (write names x)).map some
  reads : ∀ p j, Entry.coreBody r p j c = Entry.require p ((read j).map body)
  document : ∀ names x, IsDocument (write names x)

section Plain

variable {r : Registry}

theorem plain_profile : Plain r .profile Profile.ofJson? (fun _ => Profile.toJson) .profile where
  writes _ _ _ := rfl
  reads _ _ := rfl
  document _ _ := isDocument_toJson (by simp [Entity.headerMembers])

theorem plain_enumeration :
    Plain r .enumeration Enumeration.ofJson? Enumeration.toJson .enumeration where
  writes names q x := by
    rw [← x.toJson_spell, ← referencePath_bare r]
    rfl
  reads _ _ := rfl
  document _ _ := isDocument_toJson (by simp [Entity.headerMembers])

theorem plain_class : Plain r .class Class.ofJson? Class.toJson .class where
  writes names q x := by
    rw [← x.toJson_spell, ← referencePath_bare r]
    rfl
  reads _ _ := rfl
  document _ _ := isDocument_toJson (by simp [Entity.headerMembers])

theorem plain_association :
    Plain r .association Association.ofJson? Association.toJson .association where
  writes names q x := by
    rw [← x.toJson_spell, ← referencePath_bare r]
    rfl
  reads _ _ := rfl
  document _ _ := isDocument_toJson (by simp [Entity.headerMembers])

theorem plain_function : Plain r .function Function.ofJson? Function.toJson .function where
  writes names q x := by
    rw [← x.toJson_spell, ← referencePath_bare r]
    rfl
  reads _ _ := rfl
  document _ _ := isDocument_toJson (by simp [Entity.headerMembers])

theorem plain_service : Plain r .service Service.ofJson? Service.toJson .service where
  writes names q x := by
    rw [← x.toJson_spell, ← referencePath_bare r]
    rfl
  reads _ _ := rfl
  document _ _ := isDocument_toJson (by simp [Entity.headerMembers])

theorem plain_connection :
    Plain r .connection Connection.ofElementJson? Connection.toElementJson .connection where
  writes names q x := by
    rw [Connection.toElementJson, ← x.toJson_spell, ← referencePath_bare r]
    rfl
  reads _ _ := rfl
  document _ _ := isDocument_toJson (by simp [Entity.headerMembers])

theorem plain_runtime :
    Plain r .runtime Runtime.ofElementJson? Runtime.toElementJson .runtime where
  writes names q x := by
    rw [Runtime.toElementJson, ← x.toJson_spell, ← referencePath_bare r]
    rfl
  reads _ _ := rfl
  document _ _ := isDocument_toJson (by simp [Entity.headerMembers])

variable {α : Type} {c : Classifier} {read : Json → Option α} {write : Naming → α → Json}
  {body : α → Body}

theorem Plain.restates (k : Plain r c read write body) {again : Naming → α → α}
    (hagain : ∀ names x, (body x).reread names = body (again names x))
    (h : ∀ names, Respells read (write names) (again names)) :
    Restates r (fun p j => Entry.coreBody r p j c) c.path c.type := by
  intro p j b hb names q w hw
  simp only [k.reads] at hb
  obtain ⟨x, hx, rfl⟩ := Option.map_eq_some_iff.mp (Entry.require_eq_ok.mp hb)
  obtain ⟨s, hs, hwithin⟩ := k.document names x
  have he := some_of_map_some ((k.writes names q x).symm.trans hw)
  refine ⟨s, hwithin, hs ▸ he, ?_⟩
  simp only [k.reads, hagain]
  rw [← hs, h names hx]
  rfl

end Plain

theorem entity?_database {r : Registry} {q : Path} {d : Database} {j : Json}
    (hj : d.toJson Link.path = .ok j) :
    (bare r).entity? (.placed q (.database d)) =
      (coreEntity (.placed q (.database d)) .database j).map some := by
  rw [entity?, referencePath_bare]
  simp only [Element.placed, hj]

theorem entity?_unwritable {r : Registry} {q : Path} {d : Database} {bad : BadColumnType}
    (hj : d.toJson Link.path = .error bad) :
    (bare r).entity? (.placed q (.database d)) = .error (.invalidColumnType q bad.dataType) := by
  rw [entity?, referencePath_bare]
  simp only [Element.placed, hj]

theorem isDocument_database {names : Naming} {d : Database} {j : Json} (h : d.toJson names = .ok j) :
    IsDocument j := by
  obtain ⟨schemas, -, h⟩ := bind_eq_ok.mp h
  cases h
  exact isDocument_toJson (by simp [Entity.headerMembers])

theorem entity?_standard {r : Registry} {q : Path} {b : Body} {w : Entity}
    (hw : (bare r).entity? (.placed q b) = .ok (some w)) :
    (bare r).entity? (.placed q b.standard) = .ok (some w) := by
  cases b with
  | database d =>
    cases hj : d.toJson Link.path with
    | error bad =>
      rw [entity?_unwritable hj] at hw
      cases hw
    | ok j =>
      rw [entity?_database hj] at hw
      rw [Body.standard, entity?_database (Database.toJson_standard hj)]
      exact hw
  | _ => exact hw

theorem restates_database {r : Registry} :
    Restates r (fun p j => Entry.coreBody r p j .database) Classifier.database.path
      Classifier.database.type := by
  intro p j b hb names q w hw
  obtain ⟨d, hd, rfl⟩ := Option.map_eq_some_iff.mp (Entry.require_eq_ok.mp hb)
  have hspelled : (Body.database d).spelled names = .database (d.rebind (spell names)) := rfl
  rw [hspelled] at hw ⊢
  cases hj : d.toJson names with
  | error bad =>
    rw [entity?_unwritable ((d.toJson_spell names).trans hj)] at hw
    cases hw
  | ok document =>
    obtain ⟨s, rfl, hs⟩ := isDocument_database hj
    rw [entity?_database ((d.toJson_spell names).trans hj)] at hw
    refine ⟨s, hs, some_of_map_some hw, ?_⟩
    simp only [Entry.coreBody, Database.respells hd hj]
    rfl

theorem entity?_mapping {r : Registry} {q : Path} {m : Mapping} {j : Json}
    (hj : (bare r).mappingJson q m = .ok j) : (bare r).entity? (.placed q (.mapping m)) =
      (coreEntity (.placed q (.mapping m)) .mapping j).map some := by
  rw [entity?]
  simp only [Element.placed, hj]

theorem restates_mapping {ps : List Preset} {r : Registry} (hr : Preset.registry ps = .ok r) :
    Restates r (fun p j => Entry.coreBody r p j .mapping) Classifier.mapping.path
      Classifier.mapping.type := by
  intro p j b hb names q w hw
  obtain ⟨m, hm, rfl⟩ := map_eq_ok.mp hb
  obtain ⟨document, hj, ⟨s, rfl, hs⟩, hread⟩ := Entry.mapping_restated hr names hm
  have hspelled : (Body.mapping m).spelled names = .mapping (m.spelled names) := rfl
  rw [hspelled] at hw ⊢
  rw [entity?_mapping (hj q)] at hw
  exact ⟨s, hs, some_of_map_some hw, map_eq_ok.mpr ⟨_, hread q, rfl⟩⟩

theorem restates_core {ps : List Preset} {r : Registry} (hr : Preset.registry ps = .ok r)
    (c : Classifier) : Restates r (fun p j => Entry.coreBody r p j c) c.path c.type := by
  cases c with
  | profile => exact plain_profile.restates (fun _ _ => rfl) fun _ => Profile.rereads
  | enumeration => exact plain_enumeration.restates (fun _ _ => rfl) Enumeration.respells
  | «class» => exact plain_class.restates (fun _ _ => rfl) Class.respells
  | association => exact plain_association.restates (fun _ _ => rfl) Association.respells
  | function => exact plain_function.restates (fun _ _ => rfl) Function.respells
  | service => exact plain_service.restates (fun _ _ => rfl) Service.respells
  | connection => exact plain_connection.restates (fun _ _ => rfl) Connection.element_respells
  | runtime => exact plain_runtime.restates (fun _ _ => rfl) Runtime.element_respells
  | database => exact restates_database
  | mapping => exact restates_mapping hr

/-- What a kind of element reads is of that kind, and written, under any naming, as a document from
which it is read again. -/
def ElementKind.Restates (k : ElementKind) : Prop :=
  ∀ {j x}, k.read j = some x → x.kind = k.tag ∧ ∀ names,
    ∃ s : Record, Within (· ∉ Entity.headerMembers) s ∧ k.write names x = .ok s.toJson ∧
      k.read s.toJson = some (x.rebind (repath names))

/-- How a kind of element reads and writes. -/
structure ElementKind.Plain (k : ElementKind) {α : Type} (read : Json → Option α)
    (write : Naming → α → Json) (body : α → Extension) : Prop where
  reads : ∀ j, k.read j = (read j).map body
  writes : ∀ names x, k.write names (body x) = .ok (write names x)
  tag : ∀ x, (body x).kind = k.tag
  document : ∀ names x, IsDocument (write names x)

theorem Preset.plain_text :
    textKind.Plain TextElement.ofJson? (fun _ => TextElement.toJson) .text where
  reads _ := rfl
  writes _ _ := rfl
  tag _ := rfl
  document _ _ := isDocument_toJson (by simp [Entity.headerMembers])

theorem Preset.plain_diagram : diagramKind.Plain Diagram.ofJson? Diagram.toJson .diagram where
  reads _ := rfl
  writes _ _ := rfl
  tag _ := rfl
  document _ _ := isDocument_toJson (by simp [Entity.headerMembers])

theorem Preset.plain_serviceStore :
    serviceStoreKind.Plain ServiceStore.ofJson? ServiceStore.toJson .serviceStore where
  reads _ := rfl
  writes _ _ := rfl
  tag _ := rfl
  document _ _ := isDocument_toJson (by simp [Entity.headerMembers])

theorem Preset.plain_schema :
    schemaKind.Plain SerializerSchema.ofJson? SerializerSchema.toJson .schema where
  reads _ := rfl
  writes _ _ := rfl
  tag _ := rfl
  document _ _ := isDocument_toJson (by simp [Entity.headerMembers])

theorem ElementKind.Plain.restates {k : ElementKind} {α : Type} {read : Json → Option α}
    {write : Naming → α → Json} {body : α → Extension} (p : k.Plain read write body)
    {again : Naming → α → α}
    (hagain : ∀ names x, (body x).rebind (repath names) = body (again names x))
    (h : ∀ names, Respells read (write names) (again names)) : k.Restates := by
  intro j e he
  rw [p.reads] at he
  obtain ⟨x, hx, rfl⟩ := Option.map_eq_some_iff.mp he
  refine ⟨p.tag x, fun names => ?_⟩
  obtain ⟨s, hs, hwithin⟩ := p.document names x
  refine ⟨s, hwithin, hs ▸ p.writes names x, ?_⟩
  rw [p.reads, ← hs, h names hx, hagain]
  rfl

theorem Preset.restates_kind {ps : List Preset} {r : Registry} (hr : Preset.registry ps = .ok r)
    {k : ElementKind} (hk : k ∈ r.kinds) : k.Restates := by
  rcases Preset.mem_kinds hr hk with rfl | rfl | rfl | rfl
  · exact plain_text.restates (fun _ _ => rfl) fun _ => TextElement.rereads
  · exact plain_diagram.restates (fun _ _ => rfl) Diagram.respells
  · exact plain_serviceStore.restates (fun _ _ => rfl) ServiceStore.respells
  · exact plain_schema.restates (fun _ _ => rfl) SerializerSchema.respells

theorem entity?_extension {ps : List Preset} {r : Registry} (hr : Preset.registry ps = .ok r)
    {k : ElementKind} (hk : k ∈ r.kinds) {x : Extension} (htag : x.kind = k.tag) {names : Naming}
    {j : Json} (hwrite : k.write names x = .ok j) (q : Path) :
    (bare r).entity? (.placed q ((Body.extension x).spelled names)) =
      (entity (.placed q ((Body.extension x).spelled names)) k.classifier k.type j).map some := by
  change (bare r).entity? (.placed q (.extension (x.rebind (spell names)))) = _
  rw [entity?]
  simp only [Element.placed, extensionEntity, registry_bare, Extension.kind_rebind, htag,
    Preset.kind?_tag hr hk, referencePath_bare, Preset.write_spell hr hk, hwrite, mapError_ok,
    ok_bind]
  rfl

theorem restates_extension {ps : List Preset} {r : Registry} (hr : Preset.registry ps = .ok r)
    {k : ElementKind} (hk : k ∈ r.kinds) :
    Restates r (fun p j => Entry.require p ((k.read j).map .extension)) k.classifier k.type := by
  intro p j b hb names q w hw
  obtain ⟨x, hx, rfl⟩ := Option.map_eq_some_iff.mp (Entry.require_eq_ok.mp hb)
  obtain ⟨htag, hrestates⟩ := Preset.restates_kind hr hk hx
  obtain ⟨s, hs, hwrite, hread⟩ := hrestates names
  rw [entity?_extension hr hk htag hwrite] at hw
  refine ⟨s, hs, some_of_map_some hw, ?_⟩
  simp only [hread]
  rfl

/-- The entity that an entry is written as, at a path and under a naming: it passes the checks of a
build, and what it describes is read of it again. -/
structure Entry.Respelled (r : Registry) (e : Entry) (b : Body) (names : Naming) (q : Path)
    (w : Entity) : Prop where
  path : w.path = q
  classifier : w.classifier = e.entity.classifier
  header : headerFault? w e.kind = none
  body : Entry.body r ⟨w, e.kind⟩ = .ok (b.reread names)

theorem Entry.respelled_of_restates {r : Registry} {read : Path → Json → Except Diagnostic Body}
    {e : Entry} {b : Body} (h : Restates r read e.entity.classifier e.kind.type)
    (he : ∀ w : Entity, Entry.body r ⟨w, e.kind⟩ = read w.path w.document)
    (hb : e.body r = .ok b) {names : Naming} {q : Path} (hq : q.fault? = none) {w : Entity}
    (hw : (bare r).entity? (.placed q (b.spelled names)) = .ok (some w)) :
    e.Respelled r b names q w := by
  rw [show e.body r = _ from he e.entity] at hb
  obtain ⟨s, hs, hwritten, hread⟩ := h hb names q w hw
  rw [entity_toJson] at hwritten
  cases hwritten
  refine ⟨rfl, rfl, headerFault?_entity hs rfl hq, ?_⟩
  rw [he, document_entity hs]
  exact hread

theorem Entry.respelled {ps : List Preset} {r : Registry} (hr : Preset.registry ps = .ok r)
    {e : Entry} {b : Body} (hk : EntryKind.ofPath? r e.entity.classifier = some e.kind)
    (hb : e.body r = .ok b) {names : Naming} {q : Path} (hq : q.fault? = none) {w : Entity}
    (hw : (bare r).entity? (.placed q (b.spelled names)) = .ok (some w)) :
    e.Respelled r b names q w := by
  obtain ⟨entity, kind⟩ := e
  rw [EntryKind.ofPath?] at hk
  cases hc : Classifier.ofPath? entity.classifier with
  | some c =>
    simp only [hc, Option.some.injEq] at hk
    subst hk
    have h : Restates r (fun p j => coreBody r p j c) entity.classifier c.type :=
      Classifier.path_of_ofPath? hc ▸ restates_core hr c
    exact respelled_of_restates @h (fun _ => rfl) hb hq hw
  | none =>
    simp only [hc] at hk
    obtain ⟨k, hfound, rfl⟩ := Option.map_eq_some_iff.mp hk
    have hclassifier : k.classifier = entity.classifier := by simpa using List.find?_some hfound
    have h : Restates r (fun p j => require p ((k.read j).map .extension)) entity.classifier
        k.type := hclassifier ▸ restates_extension hr (List.mem_of_find?_eq_some hfound)
    exact respelled_of_restates @h (fun _ => rfl) hb hq hw

theorem Entry.renewed_body {r : Registry} {e : Entry} {b : Body} (h : e.body r = .ok b) :
    b.renewed = b.standard := by
  rw [body] at h
  cases hk : e.kind with
  | extension k =>
    rw [hk] at h
    obtain ⟨x, -, rfl⟩ := Option.map_eq_some_iff.mp (require_eq_ok.mp h)
    rfl
  | core c =>
    rw [hk] at h
    cases c with
    | mapping =>
      obtain ⟨m, hm, rfl⟩ := map_eq_ok.mp h
      exact congrArg Body.mapping (renewed_of_mapping hm)
    | connection =>
      obtain ⟨c, hc, rfl⟩ := Option.map_eq_some_iff.mp (require_eq_ok.mp h)
      exact congrArg Body.connection (Connection.settled_of_element hc)
    | runtime =>
      obtain ⟨t, ht, rfl⟩ := Option.map_eq_some_iff.mp (require_eq_ok.mp h)
      exact congrArg Body.runtime (Runtime.settled_of_element ht)
    | service =>
      obtain ⟨s, hs, rfl⟩ := Option.map_eq_some_iff.mp (require_eq_ok.mp h)
      exact congrArg Body.service (Service.settled_of_read hs)
    | _ =>
      obtain ⟨x, -, rfl⟩ := Option.map_eq_some_iff.mp (require_eq_ok.mp h)
      rfl

theorem SetImplementation.renewed_of_mem {m : Mapping} {s : SetImplementation}
    (hm : (Body.mapping m).renewed = (Body.mapping m).standard) (hs : s ∈ m.slots) :
    s.renewed = s := by
  have hslots : m.slots.map SetImplementation.renewed = m.slots :=
    congrArg Mapping.slots (Body.mapping.inj hm)
  exact List.map_inj_left.mp (hslots.trans (List.map_id _).symm) s hs

theorem Entry.reread_path {r : Registry} {e : Entry} {b : Body} (h : e.body r = .ok b) :
    b.reread Link.path = b.standard := by
  rw [Body.reread, b.rebind_path, renewed_body h]

/-- The entity of an entry is written as an entity that passes the checks of a build, describes the
same, and is written as itself. -/
structure Entry.Restated (r : Registry) (e : Entry) (b : Body) (w : Entity) : Prop where
  path : w.path = e.entity.path
  classifier : w.classifier = e.entity.classifier
  header : headerFault? w e.kind = none
  body : Entry.body r ⟨w, e.kind⟩ = .ok b.standard
  written : (bare r).entity? (.placed w.path b.standard) = .ok (some w)

theorem entity?_spelled_path {ps : List Preset} {r : Registry} (hr : Preset.registry ps = .ok r)
    (q : Path) (b : Body) :
    (bare r).entity? (.placed q (b.spelled Link.path)) = (bare r).entity? (.placed q b) := by
  have h := entity?_spelled (g := bare r) (Preset.writesByName hr) (.placed q b)
  rwa [referencePath_bare] at h

theorem Entry.restated {ps : List Preset} {r : Registry} (hr : Preset.registry ps = .ok r)
    {e : Entry} {b : Body} {w : Entity} (hk : EntryKind.ofPath? r e.entity.classifier = some e.kind)
    (hp : e.entity.path.fault? = none) (hb : e.body r = .ok b)
    (hw : (bare r).entity? (.placed e.entity.path b) = .ok (some w)) : e.Restated r b w := by
  have h := respelled hr hk hb hp ((entity?_spelled_path hr _ b).trans hw)
  exact ⟨h.path, h.classifier, h.header, reread_path hb ▸ h.body, h.path ▸ entity?_standard hw⟩

end ModelGraph
