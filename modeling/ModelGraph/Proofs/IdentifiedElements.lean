import ModelGraph.Proofs.BoundedBodies

namespace ModelGraph

open HashInput ModelGraph.Graph

theorem ok_of_toOption {ε α : Type} {x : Except ε α} {a : α} (h : x.toOption = some a) :
    x = .ok a := by
  cases x with
  | error e => cases h
  | ok b => rw [Option.some.inj h]

/-- Entities of one text. -/
structure Entity.SameText (w w' : Entity) : Prop where
  path : w.path = w'.path
  classifier : w.classifier = w'.classifier
  content : w.content.SameText w'.content

def Extension.inputs (path : Path) : Extension → List HashInput
  | .schema s => s.inputs path
  | x => [x.hashInput path]

namespace Body

def inputs (path : Path) : Body → List HashInput
  | .enumeration e => e.inputs path
  | .class c => c.inputs path
  | .association a => a.inputs path
  | .function f => f.inputs path
  | .database d => d.inputs path
  | .mapping m => m.inputs path
  | .connection c => [c.elementHashInput path, c.hashInput]
  | .runtime r => r.elementHashInput path :: r.inputs
  | .service s => s.inputs path
  | .extension x => x.inputs path
  | b => [b.hashInput path]

theorem mem_inputs (path : Path) (b : Body) : b.hashInput path ∈ b.inputs path := by
  cases b with
  | extension x => cases x <;> exact List.mem_cons_self
  | _ => exact List.mem_cons_self

def tag : Body → HashTag
  | .package _ => .package
  | .primitiveType => .primitiveType
  | .profile _ => .profile
  | .enumeration _ => .enumeration
  | .class _ => .class
  | .association _ => .association
  | .function _ => .function
  | .database _ => .database
  | .mapping _ => .mapping
  | .connection _ => .connection
  | .runtime _ => .runtime
  | .service _ => .service
  | .extension _ => .extension

theorem tag_prefix (path : Path) (b : Body) : HashInput.tag b.tag <+: b.hashInput path := by
  cases b with
  | extension x =>
    cases x <;> simp [hashInput, Extension.hashInput, TextElement.hashInput, Diagram.hashInput,
      ServiceStore.hashInput, SerializerSchema.hashInput, Verbatim.elementHashInput, extensionTag, tag]
  | _ =>
    simp [hashInput, Profile.hashInput, Enumeration.hashInput, Class.hashInput,
      Association.hashInput, Function.hashInput, Database.hashInput, Mapping.hashInput,
      Connection.elementHashInput, Runtime.elementHashInput, Service.hashInput, tag]

theorem tag_eq {b b' : Body} {path path' : Path} (h : Agree (b.hashInput path) (b'.hashInput path')) :
    b.tag = b'.tag := by
  obtain ⟨x, hx⟩ := b.tag_prefix path
  obtain ⟨y, hy⟩ := b'.tag_prefix path'
  rw [← hx, ← hy] at h
  exact (delimits_tag h).1

/-- The kinds of bodies whose digests determine all that is written of them. -/
def isIdentified : Body → Bool
  | .profile _ => true
  | .enumeration _ => true
  | .class _ => true
  | .association _ => true
  | .database _ => true
  | .connection _ => true
  | .runtime _ => true
  | .service _ => true
  | .extension (.text _) => true
  | .extension (.schema _) => true
  | _ => false

def header : Body → String × String
  | .profile _ => core .profile
  | .enumeration _ => core .enumeration
  | .class _ => core .class
  | .association _ => core .association
  | .function _ => core .function
  | .database _ => core .database
  | .mapping _ => core .mapping
  | .connection _ => core .connection
  | .runtime _ => core .runtime
  | .service _ => core .service
  | .extension (.text _) => extension Preset.textKind
  | .extension (.schema _) => extension Preset.schemaKind
  | _ => ("", "")
where
  core (c : Classifier) : String × String := (c.path, c.type)
  extension (k : ElementKind) : String × String := (k.classifier, k.type)

/-- What a body is written as below its header, under the paths that its references hold; mappings
and the kinds without entities apart. -/
def document? : Body → Option Json
  | .profile p => some p.toJson
  | .enumeration e => some (e.toJson Link.path)
  | .class c => some (c.toJson Link.path)
  | .association a => some (a.toJson Link.path)
  | .function f => some (f.toJson Link.path)
  | .database d => (d.toJson Link.path).toOption
  | .connection c => some (c.toElementJson Link.path)
  | .runtime r => some (r.toElementJson Link.path)
  | .service s => some (s.toJson Link.path)
  | .extension (.text t) => some t.toJson
  | .extension (.schema s) => some (s.toJson Link.path)
  | _ => none

/-- Bodies that are written under one header, and as documents of one text if they are written. -/
structure Alike (b b' : Body) : Prop where
  header : b.header = b'.header
  document : ∀ {j k}, b.document? = some j → b'.document? = some k → j.SameText k

variable {b b' : Body} {path path' : Path}

theorem Alike.of_sameText {j k : Json} (hj : b.document? = some j) (hk : b'.document? = some k)
    (hh : b.header = b'.header) (h : j.SameText k) : b.Alike b' := by
  refine ⟨hh, ?_⟩
  intro j' k' hj' hk'
  rw [hj, Option.some.injEq] at hj'
  rw [hk, Option.some.injEq] at hk'
  exact hj' ▸ hk' ▸ h

theorem alike_of_extension {x x' : Extension} (hk : (extension x).isIdentified = true)
    (hk' : (extension x').isIdentified = true) (apart : Apart (x.inputs path) (x'.inputs path'))
    (h : Agree (x.hashInput path) (x'.hashInput path')) :
    path = path' ∧ (extension x).Alike (.extension x') := by
  have hschema : ∀ {p q : Path} {t : TextElement} {s : SerializerSchema},
      ¬Agree (t.hashInput p) (s.hashInput q) := by
    intro p q t s h
    simp only [TextElement.hashInput, SerializerSchema.hashInput, extensionTag,
      List.append_assoc] at h
    exact absurd (delimits_text h.tail).1 (by decide)
  cases x with
  | text t =>
    cases x' with
    | text t' =>
      obtain ⟨hpath, hj⟩ := TextElement.toJson_eq h
      exact ⟨hpath, .of_sameText rfl rfl rfl (hj ▸ .refl _)⟩
    | schema s' => exact absurd h hschema
    | _ => cases hk'
  | schema s =>
    cases x' with
    | text t' => exact absurd h.symm hschema
    | schema s' =>
      obtain ⟨hpath, hj⟩ := SerializerSchema.toJson_eq apart h
      exact ⟨hpath, .of_sameText rfl rfl rfl (hj ▸ .refl _)⟩
    | _ => cases hk'
  | _ => cases hk

theorem alike_of_hashInput (hk : b.isIdentified = true) (hk' : b'.isIdentified = true)
    (hb : b.IsBounded) (hb' : b'.IsBounded) (apart : Apart (b.inputs path) (b'.inputs path'))
    (h : Agree (b.hashInput path) (b'.hashInput path')) :
    path = path' ∧ b.Alike b' := by
  have htag := tag_eq h
  cases b with
  | profile p =>
    cases b' with
    | profile p' =>
      obtain ⟨hpath, hj⟩ := Profile.toJson_eq h
      exact ⟨hpath, .of_sameText rfl rfl rfl (hj ▸ .refl _)⟩
    | _ => cases htag
  | enumeration e =>
    cases b' with
    | enumeration e' =>
      obtain ⟨hpath, hj⟩ := Enumeration.toJson_eq apart h
      exact ⟨hpath, .of_sameText rfl rfl rfl (hj ▸ .refl _)⟩
    | _ => cases htag
  | «class» c =>
    cases b' with
    | «class» c' =>
      obtain ⟨hpath, hj⟩ := Class.sameText hb hb' apart h
      exact ⟨hpath, .of_sameText rfl rfl rfl hj⟩
    | _ => cases htag
  | association a =>
    cases b' with
    | association a' =>
      obtain ⟨hpath, hj⟩ := Association.sameText hb hb' apart h
      exact ⟨hpath, .of_sameText rfl rfl rfl hj⟩
    | _ => cases htag
  | database d =>
    cases b' with
    | database d' =>
      obtain ⟨hpath, hj⟩ := Database.sameText apart h
      exact ⟨hpath, rfl, fun hd hd' => hj (ok_of_toOption hd) (ok_of_toOption hd')⟩
    | _ => cases htag
  | connection c =>
    cases b' with
    | connection c' =>
      obtain ⟨hpath, hj⟩ := Connection.elementSameText apart h
      exact ⟨hpath, .of_sameText rfl rfl rfl hj⟩
    | _ => cases htag
  | runtime r =>
    cases b' with
    | runtime r' =>
      obtain ⟨hpath, hj⟩ := Runtime.elementSameText apart h
      exact ⟨hpath, .of_sameText rfl rfl rfl hj⟩
    | _ => cases htag
  | service s =>
    cases b' with
    | service s' =>
      obtain ⟨hpath, hj⟩ := Service.sameText apart h
      exact ⟨hpath, .of_sameText rfl rfl rfl hj⟩
    | _ => cases htag
  | extension x =>
    cases b' with
    | extension x' =>
      exact alike_of_extension hk hk' apart h
    | _ => cases htag
  | _ => cases hk

end Body

namespace Graph

variable {g : Graph} {r r' : Registry} {ps ps' : List Preset} {p : Path} {b : Body} {w w' : Entity}

theorem entity_sameText {e e' : Element} {classifier type : String} {j k : Json}
    (hn : e.name = e'.name) (hp : e.path = e'.path) (h : j.SameText k)
    (hw : entity e classifier type j = .ok w) (hw' : entity e' classifier type k = .ok w') :
    w.SameText w' := by
  cases j with
  | obj ms =>
    cases k with
    | obj ns =>
      cases hw
      cases hw'
      refine ⟨hp, rfl, Json.sameText_obj_iff.mpr (Json.SameMember.sortMembers ?_)⟩
      rw [hn, hp, List.append_assoc, List.append_assoc]
      exact List.rel_append (Json.sameText_obj_iff.mp h) (Record.SameText.refl _)
    | _ => cases hw'
  | _ => cases hw

theorem Preset.kind?_eq (hr : Preset.registry ps = .ok r) {k : ElementKind} (k' : ElementKind)
    (hk : k' ∈ [Preset.textKind, Preset.schemaKind]) (h : r.kind? k'.tag = some k) : k = k' := by
  have htag : k.tag = k'.tag := by simpa using List.find?_some h
  simp only [List.mem_cons, List.not_mem_nil, or_false] at hk
  rcases Preset.mem_kinds hr (List.mem_of_find?_eq_some h) with rfl | rfl | rfl | rfl <;>
    rcases hk with rfl | rfl <;> first | rfl | exact absurd htag (by decide)

theorem entity_of_extension (hr : Preset.registry ps = .ok r) {x : Extension}
    (hd : (Body.extension x).isIdentified = true)
    (hw : (bare r).extensionEntity (.placed p (.extension x)) x = .ok w) :
    ∃ j, (Body.extension x).document? = some j ∧
      entity (.placed p (.extension x)) (Body.extension x).header.1 (Body.extension x).header.2 j =
        .ok w := by
  rw [extensionEntity, registry_bare] at hw
  cases hk : r.kind? x.kind with
  | none =>
    rw [hk] at hw
    cases hw
  | some k =>
    simp only [hk] at hw
    obtain ⟨j, hj, hw⟩ := bind_eq_ok.mp hw
    cases x with
    | text t =>
      obtain rfl := Preset.kind?_eq hr Preset.textKind (by simp) hk
      cases hj
      exact ⟨_, rfl, hw⟩
    | schema s =>
      obtain rfl := Preset.kind?_eq hr Preset.schemaKind (by simp) hk
      rw [referencePath_bare] at hj
      cases hj
      exact ⟨_, rfl, hw⟩
    | _ => cases hd

theorem entity_of_document (hr : Preset.registry ps = .ok r)
    (hd : b.isIdentified = true ∨ b.kind = .function)
    (hw : (bare r).entity? (.placed p b) = .ok (some w)) :
    ∃ j, b.document? = some j ∧ entity (.placed p b) b.header.1 b.header.2 j = .ok w := by
  rw [entity?, referencePath_bare] at hw
  cases b with
  | database d =>
    simp only [Element.placed] at hw
    split at hw
    next j hj => exact ⟨j, by rw [Body.document?, hj]; rfl, some_of_map_some hw⟩
    · cases hw
  | extension x =>
    exact entity_of_extension hr (hd.resolve_right Kind.noConfusion) (some_of_map_some hw)
  | package children => simp [Body.isIdentified, Body.kind] at hd
  | primitiveType => simp [Body.isIdentified, Body.kind] at hd
  | mapping m => simp [Body.isIdentified, Body.kind] at hd
  | _ => exact ⟨_, rfl, some_of_map_some hw⟩

theorem entity?_sameText (hr : Preset.registry ps = .ok r) (hr' : Preset.registry ps' = .ok r')
    {p' : Path} {b' : Body} (hk : b.isIdentified = true) (hk' : b'.isIdentified = true)
    (hp : p = p') (h : b.Alike b') (hw : (bare r).entity? (.placed p b) = .ok (some w))
    (hw' : (bare r').entity? (.placed p' b') = .ok (some w')) : w.SameText w' := by
  obtain ⟨j, hj, hw⟩ := entity_of_document hr (.inl hk) hw
  obtain ⟨k, hk, hw'⟩ := entity_of_document hr' (.inl hk') hw'
  rw [← h.header] at hw'
  exact entity_sameText (by rw [hp]; rfl) hp (h.document hj hk) hw hw'

end Graph
end ModelGraph
