import ModelGraph.Proofs.SpelledElements
import ModelGraph.Proofs.SpelledMappings
import ModelGraph.Proofs.WrittenEntities

namespace ModelGraph

open Record Json Form ModelGraph.Graph

variable {n : Nat} {r : Registry} {ps : List Preset}

namespace Form

/-- The documents of a type have members of their own beside those of the header. -/
theorem document_header {type : String} {fields : Fields} (h : document n type = some fields) :
    ∀ f ∈ fields, f.1 ∉ Entity.headerMembers := by
  have hnames : ∀ k ∈ fields.map Prod.fst, k ∉ Entity.headerMembers := by
    rw [document.eq_def] at h
    split at h <;> cases h <;> simp [profile, enumeration, «class», association, function, database,
      mapping, connection, runtime, service, textElement, diagram, serviceStore, serializerSchema,
      annotations, Entity.headerMembers]
  exact fun f hf => hnames f.1 (List.mem_map_of_mem hf)

end Form

namespace ClassMappingExtension

theorem toJson_servicesRecord (names : Naming) (h : ClassMappingHeader)
    (pointers : List ServicePointer) : (servicesRecord names h pointers).toJson =
      tagged servicesType (h.written names ++
        listField "servicesMapping" (pointers.map (ServicePointer.toJson names))) := by
  rw [tagged_eq, Record.toJson, Record.toJson, object, object, Json.obj.injEq]
  apply (ordered_sortMembers _).ext (ordered_sortMembers _)
  intro k
  by_cases ht : k = "_type"
  · simp [servicesRecord, ht]
  · by_cases hs : k = "servicesMapping"
    · simp [servicesRecord, hs]
    · simp [servicesRecord, ht, hs]

theorem services_tells {j : Json} {header : ClassMappingHeader} {pointers : List ServicePointer}
    (hj : j.IsTidy (n + 1)) (htype : (j.member? "_type").bind text? = some servicesType)
    (hh : ClassMappingHeader.ofJson? j = some header)
    (hp : servicesOfJson? (j.without headerMembers) = some (.services pointers)) :
    (classMapping (n + 1)).Tells j (servicesRecord Link.path header pointers).toJson := by
  cases j with
  | obj members =>
    obtain ⟨t, ht, htype⟩ := Option.bind_eq_some_iff.mp htype
    obtain rfl := eq_str_of_text? htype
    change members.lookup "_type" = _ at ht
    have htag : tagged? [servicesType] false (.obj members) =
        some (servicesType, .obj (members.filter fun m => m.1 != "_type")) := by
      simp [tagged?, ht, variant?]
    rw [ClassMappingHeader.ofJson?_obj] at hh
    simp only [servicesOfJson?, bind_eq_some, pure_eq_some, list_eq] at hp
    obtain ⟨r, hr, services, hp, hs⟩ := hp
    cases hs
    rw [without, Record.ofJson?] at hr
    split at hr
    · next hall =>
      obtain rfl := Option.some.inj hr
      have hmembers : Record.ofJson? ["id", "class", "root", "servicesMapping"]
          (.obj (members.filter fun m => m.1 != "_type")) =
            some (members.filter fun m => m.1 != "_type") := by
        refine if_pos (List.all_eq_true.mpr fun m hm => ?_)
        obtain ⟨hm, hne⟩ := List.mem_filter.mp hm
        by_cases hk : headerMembers.contains m.1
        · have hk := (List.mem_cons.mp (List.contains_iff_mem.mp hk)).resolve_left
            (bne_iff_ne.mp hne)
          exact List.contains_iff_mem.mpr (List.mem_append_left ["servicesMapping"] hk)
        · have hs := List.all_eq_true.mp hall m (List.mem_filter.mpr ⟨hm, by simpa using hk⟩)
          exact List.contains_iff_mem.mpr
            (List.mem_append_right ["id", "class", "root"] (List.contains_iff_mem.mp hs))
      rw [lookup_filter_key fun k => !headerMembers.contains k, if_pos (by decide)] at hp
      have ht := tidies (hj.untagged htag) hmembers
      have hlookup : ∀ {k}, k ≠ "_type" →
          (members.filter fun m => m.1 != "_type").lookup k = members.lookup k := by
        intro k hk
        rw [lookup_filter_key fun k => k != "_type", if_pos (bne_iff_ne.mpr hk)]
      rw [← hlookup (by decide), ← hlookup (by decide), ← hlookup (by decide)] at hh
      rw [← hlookup (by decide)] at hp
      have hh := ClassMappingHeader.tells ht hh
      have hp := ServicePointer.spells.listed ht hp
      rw [toJson_servicesRecord]
      apply variant_tells hj.inOrder htag rfl hmembers rfl (by decide) (by simp)
      simpa [classMappingHeader] using ⟨hh.1, hh.2.1, hh.2.2, hp⟩
    · cases hr
  | _ => cases htype

end ClassMappingExtension

namespace Entry

theorem WritesClassMapping.tells {j d : Json} (h : WritesClassMapping Link.path j d)
    (hj : j.IsTidy n) : (Form.classMapping n).Tells j d := by
  cases n with
  | zero => exact absurd hj.depth_lt (Nat.not_lt_zero _)
  | succ n =>
    cases h with
    | core hd => exact ClassMappingDocument.spells hj hd
    | services htype hh hp => exact ClassMappingExtension.services_tells hj htype hh hp

theorem mapping_tells {j : Json} {d : MappingDocument} {documents : List Json} (hj : j.IsTidy n)
    (hd : MappingDocument.ofJson? j = some d)
    (hs : List.Forall₂ (WritesClassMapping Link.path) d.classMappings documents) :
    (record (Form.mapping n)).Tells j
      (mappingRecord Link.path d.includes documents d.enumerationMappings).toJson := by
  simp only [MappingDocument.ofJson?, bind_eq_some, pure_eq_some, list_eq] at hd
  obtain ⟨r, hr, includes, hi, classMappings, hc, enumerationMappings, he, rfl⟩ := hd
  have ht := tidies hj.succ hr
  have hi := MappingDocument.include_spells.listed ht hi
  have hc : TellsAt (Form.listed (Form.classMapping n)) (r.lookup "classMappings")
      (Record.listed documents) := by
    apply tellsAt_items ht hc
    intro items hitems hread
    rw [mapM_some] at hread
    obtain rfl := Option.some.inj hread
    have hs := List.forall₂_iff_zip.mp hs
    exact List.forall₂_iff_zip.mpr
      ⟨hs.1, fun h => (hs.2 h).tells (hitems _ (List.of_mem_zip h).1)⟩
  have he := EnumerationMapping.spells.listed ht he
  apply record_tells hj.inOrder hr rfl (by simp [mappingRecord])
  simpa [Form.mapping, mappingRecord] using ⟨hi, hc, he⟩

end Entry

/-- Whether what is written of an element of a classifier says the same as the document that it is
read of is told by the form of the type. -/
def Told (r : Registry) (read : Path → Json → Except Diagnostic Body)
    (classifier type : String) : Prop :=
  ∀ {n p j b w}, j.IsTidy n → read p j = .ok b →
    (bare r).entity? (.placed p (b.spelled Link.path)) = .ok (some w) →
      ∃ (s : Record) (fields : Fields), Form.document n type = some fields ∧
        Within (· ∉ Entity.headerMembers) s ∧
        entity (.placed p (b.spelled Link.path)) classifier type s.toJson = .ok w ∧
        (record fields).Tells j s.toJson

theorem Plain.told {α : Type} {c : Classifier} {read : Json → Option α}
    {write : Naming → α → Json} {body : α → Body} (k : Plain r c read write body)
    (h : ∀ {n j x}, j.IsTidy n → read j = some x → ∃ fields, Form.document n c.type = some fields ∧
      (record fields).Tells j (write Link.path x)) :
    Told r (fun p j => Entry.coreBody r p j c) c.path c.type := by
  intro n p j b w hj hb hw
  simp only [k.reads] at hb
  obtain ⟨x, hx, rfl⟩ := Option.map_eq_some_iff.mp (Entry.require_eq_ok.mp hb)
  obtain ⟨s, hs, hwithin⟩ := k.document Link.path x
  have he := some_of_map_some ((k.writes Link.path p x).symm.trans hw)
  obtain ⟨fields, hf, htells⟩ := h hj hx
  rw [hs] at he htells
  exact ⟨s, fields, hf, hwithin, he, htells⟩

theorem told_core (hr : Preset.registry ps = .ok r) (c : Classifier) :
    Told r (fun p j => Entry.coreBody r p j c) c.path c.type := by
  cases c with
  | profile => exact plain_profile.told fun hj hx => ⟨_, rfl, Profile.tells hj hx⟩
  | enumeration => exact plain_enumeration.told fun hj hx => ⟨_, rfl, Enumeration.tells hj hx⟩
  | «class» => exact plain_class.told fun hj hx => ⟨_, rfl, Class.tells hj hx⟩
  | association => exact plain_association.told fun hj hx => ⟨_, rfl, Association.tells hj hx⟩
  | function => exact plain_function.told fun hj hx => ⟨_, rfl, Function.tells hj hx⟩
  | service => exact plain_service.told fun hj hx => ⟨_, rfl, Service.tells hj hx⟩
  | connection => exact plain_connection.told fun hj hx => ⟨_, rfl, Connection.tells hj hx⟩
  | runtime => exact plain_runtime.told fun hj hx => ⟨_, rfl, Runtime.tells hj hx⟩
  | database =>
    intro n p j b w hj hb hw
    obtain ⟨d, hd, rfl⟩ := Option.map_eq_some_iff.mp (Entry.require_eq_ok.mp hb)
    have hspelled : (Body.database d).spelled Link.path = .database (d.rebind (spell Link.path)) :=
      rfl
    rw [hspelled] at hw ⊢
    cases hwritten : d.toJson Link.path with
    | error bad =>
      rw [entity?_unwritable ((d.toJson_spell _).trans hwritten)] at hw
      cases hw
    | ok document =>
      obtain ⟨s, rfl, hs⟩ := isDocument_database hwritten
      rw [entity?_database ((d.toJson_spell _).trans hwritten)] at hw
      exact ⟨s, _, rfl, hs, some_of_map_some hw, Database.tells hj hd hwritten⟩
  | mapping =>
    intro n p j b w hj hb hw
    obtain ⟨m, hm, rfl⟩ := map_eq_ok.mp hb
    obtain ⟨d, documents, built, hd, hs, -, hwrites, -⟩ := Entry.mapping_written hr Link.path hm
    have hspelled : (Body.mapping m).spelled Link.path = .mapping (m.spelled Link.path) := rfl
    rw [hspelled] at hw ⊢
    rw [entity?_mapping (hwrites p)] at hw
    exact ⟨_, _, rfl, by simp [Entry.mappingRecord, Entity.headerMembers], some_of_map_some hw,
      Entry.mapping_tells hj hd hs⟩

theorem ElementKind.Plain.told (hr : Preset.registry ps = .ok r) {k : ElementKind} {α : Type}
    {read : Json → Option α} {write : Naming → α → Json} {body : α → Extension} (hk : k ∈ r.kinds)
    (p : k.Plain read write body)
    (h : ∀ {n j x}, j.IsTidy n → read j = some x → ∃ fields, Form.document n k.type = some fields ∧
      (record fields).Tells j (write Link.path x)) :
    Told r (fun p j => Entry.require p ((k.read j).map .extension)) k.classifier k.type := by
  intro n q j b w hj hb hw
  simp only [p.reads] at hb
  obtain ⟨e, he, rfl⟩ := Option.map_eq_some_iff.mp (Entry.require_eq_ok.mp hb)
  obtain ⟨x, hx, rfl⟩ := Option.map_eq_some_iff.mp he
  obtain ⟨s, hs, hwithin⟩ := p.document Link.path x
  rw [entity?_extension hr hk (p.tag x) (p.writes Link.path x)] at hw
  obtain ⟨fields, hf, htells⟩ := h hj hx
  rw [hs] at hw htells
  exact ⟨s, fields, hf, hwithin, some_of_map_some hw, htells⟩

theorem told_extension (hr : Preset.registry ps = .ok r) {k : ElementKind} (hk : k ∈ r.kinds) :
    Told r (fun p j => Entry.require p ((k.read j).map .extension)) k.classifier k.type := by
  rcases Preset.mem_kinds hr hk with rfl | rfl | rfl | rfl
  · exact Preset.plain_text.told hr hk fun hj hx => ⟨_, rfl, TextElement.tells hj hx⟩
  · exact Preset.plain_diagram.told hr hk fun hj hx => ⟨_, rfl, Diagram.tells hj hx⟩
  · exact Preset.plain_serviceStore.told hr hk fun hj hx => ⟨_, rfl, ServiceStore.tells hj hx⟩
  · exact Preset.plain_schema.told hr hk fun hj hx => ⟨_, rfl, SerializerSchema.tells hj hx⟩

/-- A package is written where the path has one: the content may give no other text. -/
theorem package_told {o : Option Json} {package : Option String}
    (h : (o.bind text?).filter (fun p => !p.isEmpty) = package) :
    TellsAt (Form.optional nonempty) o (package.map .str) := by
  subst h
  have hnone : ∀ {j : Json}, nonempty j.canonical = false →
      TellsAt (Form.optional nonempty) (some j) none := by
    intro j hj
    cases ha : j.canonical.isAbsent with
    | true => exact tellsAt_optional (shown_absent ha)
    | false =>
      rw [TellsAt, said_some ha, shown_some ha, Form.optional, hj]
      exact iff_of_false (fun h => by cases h) Bool.false_ne_true
  cases o with
  | none => exact tellsAt_optional rfl
  | some j =>
    cases j with
    | str t =>
      cases ht : t.isEmpty with
      | true =>
        have hfilter : (some t).filter (fun p => !p.isEmpty) = none := by
          simp [Option.filter, ht]
        rw [Option.bind_some, text?, hfilter]
        exact hnone (by rw [canonical, nonempty, ht]; rfl)
      | false =>
        have hfilter : (some t).filter (fun p => !p.isEmpty) = some t := by
          simp [Option.filter, ht]
        rw [Option.bind_some, text?, hfilter]
        apply iff_of_true rfl
        rw [shown_some rfl, Form.optional, canonical, nonempty, ht]
        rfl
    | _ => exact hnone rfl

theorem lookup_contentRecord_of_notMem {e : Element} {type k : String} {s : Record}
    (hk : k ∉ Entity.headerMembers) :
    (sortMembers (contentRecord e type s)).lookup k = (sortMembers s).lookup k := by
  simp only [Entity.headerMembers, List.mem_cons, List.not_mem_nil, or_false, not_or] at hk
  simp [contentRecord, hk]

theorem lookup_without {members : List (String × Json)} {k : String} :
    (members.filter fun m => !Entity.headerMembers.contains m.1).lookup k =
      if k ∈ Entity.headerMembers then none else members.lookup k := by
  rw [lookup_filter_key fun k => !Entity.headerMembers.contains k]
  by_cases hk : k ∈ Entity.headerMembers
  · rw [if_pos hk, if_neg (by simpa using hk)]
  · rw [if_neg hk, if_pos (by simpa using hk)]

/-- An entity that is written under its own path says the same as the former one exactly if its
document does and the package is given as it is written. -/
theorem gist_content {p : Path} {b : Body} {type : String} {s : Record}
    {members : List (String × Json)} (ho : Ordered members)
    (ht : members.lookup "_type" = some (.str type)) (hn : members.lookup "name" = some (.str p.name))
    (hs : Within (· ∉ Entity.headerMembers) s) :
    (contentRecord (.placed p b) type s).toJson.gist = (Json.obj members).gist ↔
      s.toJson.gist =
          (Json.obj (members.filter fun m => !Entity.headerMembers.contains m.1)).gist ∧
        said ((p.package?.map Path.text).map .str) = said (members.lookup "package") := by
  rw [Record.toJson, object, Record.toJson, object, gist_obj_eq_iff (ordered_sortMembers _) ho,
    gist_obj_eq_iff (ordered_sortMembers _) (Ordered.filter ho)]
  have hpackage : (sortMembers (contentRecord (.placed p b) type s)).lookup "package" =
      (p.package?.map Path.text).map .str := by
    rw [lookup_contentRecord hs (by simp [Entity.headerMembers]), Option.map_map]
    rfl
  constructor
  · intro h
    refine ⟨fun k => ?_, hpackage ▸ h "package"⟩
    rw [lookup_without]
    by_cases hk : k ∈ Entity.headerMembers
    · rw [if_pos hk, lookup_of_within hs fun h => h hk]
    · rw [if_neg hk, ← h k, lookup_contentRecord_of_notMem hk]
  · rintro ⟨h, hp⟩ k
    by_cases hk : k ∈ Entity.headerMembers
    · by_cases hpk : k = "package"
      · rw [hpk, hpackage, hp]
      · rw [lookup_contentRecord hs hk]
        simp only [Entity.headerMembers, List.mem_cons, List.not_mem_nil, or_false, hpk] at hk
        rcases hk with rfl | rfl
        · rw [if_pos rfl, ht]
        · rw [if_neg (by decide), if_pos rfl, hn]
          rfl
    · have h := h k
      rwa [lookup_without, if_neg hk, ← lookup_contentRecord_of_notMem hk] at h

theorem content_told {e : Entity} {b : Body} {type : String} {s : Record} {fields : Fields}
    (ho : e.content.InOrder) (ht : e.type? = some type) (hn : Entry.name? e = some e.path.name)
    (hp : Entry.package? e = e.path.package?.map Path.text)
    (hf : Form.document (e.content.depth + 1) type = some fields)
    (hs : Within (· ∉ Entity.headerMembers) s) (htells : (record fields).Tells e.document s.toJson) :
    (contentRecord (.placed e.path b) type s).toJson.gist = e.content.gist ↔ e.isSpelled = true := by
  obtain ⟨path, classifier, content⟩ := e
  cases content with
  | obj members =>
    obtain ⟨hordered, -⟩ := inOrder_obj.mp ho
    obtain ⟨t, htype, ht⟩ := Option.bind_eq_some_iff.mp ht
    obtain rfl := eq_str_of_text? ht
    obtain ⟨t, hname, hn⟩ := Option.bind_eq_some_iff.mp hn
    obtain rfl := eq_str_of_text? hn
    refine (gist_content hordered htype hname hs).trans
      ((and_congr htells.exact (package_told hp)).trans ?_)
    have htag : (canonicalMembers members).lookup "_type" = some (.str type) :=
      (lookup_canonicalMembers hordered "_type").trans (congrArg shown htype)
    -- The members of the header stay out of the form of the type.
    have hrecord : record fields
        (Json.obj (members.filter fun m => !Entity.headerMembers.contains m.1)).canonical =
          record fields (Json.obj members).canonical := by
      rw [canonical, canonical, record, record, Bool.eq_iff_iff, List.all_eq_true, List.all_eq_true]
      apply forall₂_congr
      intro f hmem
      rw [lookup_canonicalMembers (Ordered.filter hordered), lookup_canonicalMembers hordered,
        lookup_without, if_neg (document_header hf f hmem)]
    have hvariant : variant (Form.document ((Json.obj members).depth + 1))
        (Json.obj members).canonical = record fields (Json.obj members).canonical := by
      rw [canonical, variant, htag]
      simp only [hf, Option.any_some]
    have hpackage : (Json.obj members).canonical.member? "package" =
        shown (members.lookup "package") := by
      rw [canonical]
      exact lookup_canonicalMembers hordered "package"
    rw [Entity.isSpelled, Bool.and_eq_true, hvariant, ← hrecord, hpackage]
    rfl
  | _ => cases ht

theorem Entry.headerFault?_eq_none {e : Entity} {kind : EntryKind}
    (h : headerFault? e kind = none) : e.type? = some kind.type ∧ name? e = some e.path.name ∧
      package? e = e.path.package?.map Path.text := by
  rw [headerFault?] at h
  split at h
  · cases h
  · split at h
    · cases h
    · next ht =>
      split at h
      · cases h
      · next hn =>
        simp only [ne_eq, Decidable.not_not, not_or] at ht hn
        exact ⟨ht, hn⟩

theorem Entity.document_isTidy {e : Entity} (ho : e.content.InOrder) :
    e.document.IsTidy (e.content.depth + 1) := by
  obtain ⟨path, classifier, content⟩ := e
  cases content with
  | obj members =>
    obtain ⟨hordered, hvalues⟩ := inOrder_obj.mp ho
    refine ⟨inOrder_obj.mpr ⟨Ordered.filter hordered, fun m hm =>
      hvalues m ((List.mem_filter.mp hm).1)⟩, Nat.lt_succ_of_le ?_⟩
    exact Nat.succ_le_succ (depthMembers_filter_le _ _)
  | _ => exact ⟨ho, Nat.lt_succ_self _⟩

theorem Entry.told_of_told {read : Path → Json → Except Diagnostic Body} {e : Entry} {b : Body}
    (h : Told r read e.entity.classifier e.kind.type)
    (he : e.body r = read e.entity.path e.entity.document) (hheader : headerFault? e.entity e.kind = none)
    (ho : e.entity.content.InOrder) (hb : e.body r = .ok b) {w : Entity}
    (hw : (bare r).entity? (.placed e.entity.path (b.spelled Link.path)) = .ok (some w)) :
    w.content.gist = e.entity.content.gist ↔ e.entity.isSpelled = true := by
  obtain ⟨ht, hn, hp⟩ := headerFault?_eq_none hheader
  obtain ⟨s, fields, hf, hs, hwritten, htells⟩ := h (Entity.document_isTidy ho) (he ▸ hb) hw
  rw [entity_toJson] at hwritten
  cases hwritten
  exact content_told ho ht hn hp hf hs htells

/-- What is written of an entity of a build says the same as the entity exactly if its content is
spelled as contents are written. -/
theorem Entry.told (hr : Preset.registry ps = .ok r) {e : Entry} {b : Body}
    (hk : EntryKind.ofPath? r e.entity.classifier = some e.kind)
    (hheader : headerFault? e.entity e.kind = none) (ho : e.entity.content.InOrder)
    (hb : e.body r = .ok b) {w : Entity}
    (hw : (bare r).entity? (.placed e.entity.path b) = .ok (some w)) :
    w.content.gist = e.entity.content.gist ↔ e.entity.isSpelled = true := by
  rw [← entity?_spelled_path hr] at hw
  obtain ⟨entity, kind⟩ := e
  rw [EntryKind.ofPath?] at hk
  cases hc : Classifier.ofPath? entity.classifier with
  | some c =>
    simp only [hc, Option.some.injEq] at hk
    subst hk
    have h : Told r (fun p j => coreBody r p j c) entity.classifier c.type :=
      Classifier.path_of_ofPath? hc ▸ told_core hr c
    exact told_of_told @h rfl hheader ho hb hw
  | none =>
    simp only [hc] at hk
    obtain ⟨k, hfound, rfl⟩ := Option.map_eq_some_iff.mp hk
    have hclassifier : k.classifier = entity.classifier := by simpa using List.find?_some hfound
    have h : Told r (fun p j => require p ((k.read j).map .extension)) entity.classifier k.type :=
      hclassifier ▸ told_extension hr (List.mem_of_find?_eq_some hfound)
    exact told_of_told @h rfl hheader ho hb hw

end ModelGraph
