import ModelGraph.Proofs.BuiltGraphs
import ModelGraph.Proofs.CanonicalMappings

namespace ModelGraph

open Record Json

def Body.IsCanonical : Body → Prop
  | .class c => c.IsCanonical
  | .association a => a.IsCanonical
  | .function f => f.IsCanonical
  | .database d => d.IsCanonical
  | .mapping m => m.IsCanonical
  | .connection c => c.IsCanonical
  | .runtime r => r.IsCanonical
  | .service s => s.IsCanonical
  | _ => True

theorem MappingDocument.read_canonical {j : Json} {d : MappingDocument} (hj : j.isRegular = true)
    (h : ofJson? j = some d) :
    ofJson? j.canonical = some { d with classMappings := d.classMappings.map Json.canonical } ∧
      ∀ i ∈ d.classMappings, i.isRegular = true := by
  simp only [ofJson?, bind_eq_some, pure_eq_some, list_eq] at h
  obtain ⟨r, hr, includes, hi, classMappings, hc, enumerationMappings, he, rfl⟩ := h
  obtain ⟨r', hr', t⟩ := trims hj (Nat.le_refl _) hr
  have hi := include_keeps.of_list (t "includedMappings") hi
  obtain ⟨hc, hregular⟩ := trims_items (t "classMappings") hc
  have he := EnumerationMapping.keeps.of_list (t "enumerationMappings") he
  exact ⟨by simp [ofJson?, hr', hi, hc, he], hregular⟩

namespace Entry

variable {r : Registry} {ps : List Preset} {path : Path} {m m' : Mapping} {j : Json} {b : Body}

theorem classMapping_canonical (hr : Preset.registry ps = .ok r) {s : SetImplementation}
    (hj : j.isRegular = true) (h : classMapping r path j m = .ok (s, m')) (hs : s.IsCanonical)
    (hm : m'.IsCanonical) :
    classMapping r path j.canonical m = .ok (s, m') ∧ m.IsCanonical := by
  simp only [classMapping] at h ⊢
  rw [text?_member?_canonical hj]
  split at h
  · next ht =>
    obtain ⟨d, hd, h⟩ := bind_eq_ok.mp h
    obtain ⟨hd', hm⟩ := d.isCanonical_of_intern (ok_of_mapError h) hs hm
    have hread := ClassMappingDocument.agrees hj (Nat.lt_succ_self _) hd' (require_eq_ok.mp hd)
    refine ⟨?_, hm⟩
    rw [if_pos ht, require_eq_ok.mpr hread, ok_bind, h]
  · next ht =>
    rw [if_neg ht]
    split at h
    · cases h
    · next k hk =>
      obtain rfl := Preset.mem_mappings hr (List.mem_of_find?_eq_some hk)
      obtain ⟨header, hheader, h⟩ := bind_eq_ok.mp h
      obtain ⟨content, hcontent, h⟩ := bind_eq_ok.mp h
      cases h
      have hheader := ClassMappingHeader.keeps hj (require_eq_ok.mp hheader)
      have hcontent := ClassMappingExtension.services_keeps (isRegular_without _ hj)
        (require_eq_ok.mp hcontent)
      rw [← without_canonical] at hcontent
      refine ⟨?_, hm⟩
      simp only [require_eq_ok.mpr hheader, ok_bind]
      exact bind_eq_ok.mpr ⟨content, require_eq_ok.mpr hcontent, rfl⟩

theorem addClassMappings_canonical (hr : Preset.registry ps = .ok r) {js : List Json}
    (hjs : ∀ j ∈ js, j.isRegular = true) (h : addClassMappings r path js m = .ok m')
    (hm : m'.IsCanonical) :
    addClassMappings r path (js.map Json.canonical) m = .ok m' ∧ m.IsCanonical := by
  induction js generalizing m with
  | nil =>
    cases h
    exact ⟨rfl, hm⟩
  | cons j js ih =>
    obtain ⟨⟨s, inner⟩, hs, h⟩ := bind_eq_ok.mp h
    -- The slots that are taken last are judged first.
    obtain ⟨hrest, hadded⟩ := ih (fun i hi => hjs i (List.mem_cons_of_mem j hi)) h
    rw [Mapping.isCanonical_addTop] at hadded
    obtain ⟨hhead, hm⟩ := classMapping_canonical hr (hjs j List.mem_cons_self) hs hadded.2 hadded.1
    exact ⟨bind_eq_ok.mpr ⟨(s, inner), hhead, hrest⟩, hm⟩

theorem mapping_canonical (hr : Preset.registry ps = .ok r) (hj : j.isRegular = true)
    (h : mapping r path j = .ok m) (hm : m.IsCanonical) : mapping r path j.canonical = .ok m := by
  obtain ⟨d, hd, h⟩ := bind_eq_ok.mp h
  obtain ⟨built, hb, h⟩ := bind_eq_ok.mp h
  cases h
  obtain ⟨hread, hregular⟩ := MappingDocument.read_canonical hj (require_eq_ok.mp hd)
  obtain ⟨hadded, -⟩ := addClassMappings_canonical hr hregular hb hm
  exact bind_eq_ok.mpr ⟨_, require_eq_ok.mpr hread, bind_eq_ok.mpr ⟨built, hadded, rfl⟩⟩

section Readers

variable {α : Type} {read : Json → Option α} {body : α → Body}

theorem require_agrees {p : α → Prop} (ha : ∀ n, Agrees n p read read) (hj : j.isRegular = true)
    (hp : ∀ a, b = body a → p a) (h : require path ((read j).map body) = .ok b) :
    require path ((read j.canonical).map body) = .ok b := by
  obtain ⟨a, hread, hb⟩ := Option.map_eq_some_iff.mp (require_eq_ok.mp h)
  have hread' := ha _ hj (Nat.lt_succ_self _) (hp a hb.symm) hread
  exact require_eq_ok.mpr (Option.map_eq_some_iff.mpr ⟨a, hread', hb⟩)

theorem require_keeps (hk : Keeps read) (hj : j.isRegular = true)
    (h : require path ((read j).map body) = .ok b) :
    require path ((read j.canonical).map body) = .ok b :=
  require_agrees (fun _ => hk.agrees) hj (fun _ _ => trivial) h

end Readers

theorem coreBody_canonical (hr : Preset.registry ps = .ok r) {c : Classifier}
    (hj : j.isRegular = true) (hb : b.IsCanonical) (h : coreBody r path j c = .ok b) :
    coreBody r path j.canonical c = .ok b := by
  cases c with
  | profile => exact require_keeps Profile.keeps hj h
  | enumeration => exact require_keeps Enumeration.keeps hj h
  | «class» => exact require_agrees (fun _ => Class.agrees) hj (fun _ he => by rwa [he] at hb) h
  | association => exact require_agrees (fun _ => Association.agrees) hj (fun _ he => by rwa [he] at hb) h
  | function => exact require_agrees (fun _ => Function.agrees) hj (fun _ he => by rwa [he] at hb) h
  | database => exact require_agrees (fun _ => Database.agrees) hj (fun _ he => by rwa [he] at hb) h
  | connection =>
    exact require_agrees (fun _ => Connection.element_agrees) hj (fun _ he => by rwa [he] at hb) h
  | runtime => exact require_agrees (fun _ => Runtime.element_agrees) hj (fun _ he => by rwa [he] at hb) h
  | service => exact require_agrees (fun _ => Service.agrees) hj (fun _ he => by rwa [he] at hb) h
  | mapping =>
    obtain ⟨m, hm, rfl⟩ := map_eq_ok.mp h
    exact map_eq_ok.mpr ⟨m, mapping_canonical hr hj hm hb, rfl⟩

theorem keeps_of_preset (hr : Preset.registry ps = .ok r) {k : ElementKind} (hk : k ∈ r.kinds) :
    Keeps k.read := by
  have keeps_map : ∀ {α : Type} {read : Json → Option α} {f : α → Extension}, Keeps read →
      Keeps fun j => (read j).map f := by
    intro α read f h j x hj hx
    obtain ⟨a, ha, he⟩ := Option.map_eq_some_iff.mp hx
    exact Option.map_eq_some_iff.mpr ⟨a, h hj ha, he⟩
  rcases Preset.mem_kinds hr hk with rfl | rfl | rfl | rfl
  · exact keeps_map TextElement.keeps
  · exact keeps_map Diagram.keeps
  · exact keeps_map ServiceStore.keeps
  · exact keeps_map SerializerSchema.keeps

end Entry

namespace Entity

variable {e : Entity}

theorem document_canonical (e : Entity) : e.canonical.document = e.document.canonical :=
  without_canonical headerMembers e.content

theorem headerFault?_canonical (h : e.content.isRegular = true) (kind : EntryKind) :
    Entry.headerFault? e.canonical kind = Entry.headerFault? e kind := by
  have htype : e.canonical.type? = e.type? := text?_member?_canonical h "_type"
  have hname : Entry.name? e.canonical = Entry.name? e := text?_member?_canonical h "name"
  have hpackage : Entry.package? e.canonical = Entry.package? e :=
    congrArg (Option.filter fun p : String => !p.isEmpty) (text?_member?_canonical h "package")
  have hobject : e.canonical.content.isObject = e.content.isObject := isObject_canonical e.content
  simp only [Entry.headerFault?, Entry.wrongType, Entry.wrongPath, htype, hname, hpackage, hobject]
  rfl

end Entity

def Entry.canonical (e : Entry) : Entry := { e with entity := e.entity.canonical }

/-- The content of the entity is regular, and the free-form values of the body that is read from it
are canonical. -/
structure Entity.IsTrimmable (r : Registry) (e : Entity) : Prop where
  isRegular : e.content.isRegular = true
  isCanonical : ∀ kind b, EntryKind.ofPath? r e.classifier = some kind →
    Entry.body r ⟨e, kind⟩ = .ok b → b.IsCanonical

namespace Entry

variable {r : Registry} {ps : List Preset} {e : Entry}

theorem Passes.canonical (p : e.Passes r) (h : e.entity.IsTrimmable r) : e.canonical.Passes r where
  kind := p.kind
  path := p.path
  header := (Entity.headerFault?_canonical h.isRegular e.kind).trans p.header

theorem body_canonical (hr : Preset.registry ps = .ok r) (p : e.Passes r)
    (h : e.entity.IsTrimmable r) {b : Body} (hb : e.body r = .ok b) :
    e.canonical.body r = .ok b := by
  have hcanonical := h.isCanonical e.kind b p.kind hb
  have hregular := isRegular_without Entity.headerMembers h.isRegular
  have hk := p.kind
  obtain ⟨w, kind⟩ := e
  cases kind with
  | core c =>
    change coreBody r w.path w.canonical.document c = .ok b
    rw [Entity.document_canonical]
    exact coreBody_canonical hr hregular hcanonical hb
  | extension k =>
    change require w.path ((k.read w.canonical.document).map .extension) = .ok b
    rw [Entity.document_canonical]
    exact require_keeps (keeps_of_preset hr (EntryKind.mem_of_ofPath? hk).1) hregular hb

end Entry
end ModelGraph
