import ModelGraph.Proofs.IdentifiedStores
import ModelGraph.Service
import ModelGraph.Extension.SerializerSchema
import ModelGraph.Extension.Text

namespace ModelGraph

open HashInput

theorem ConnectionStore.toJson_path (s : ConnectionStore) : s.toJson Link.path = .str s.path := by
  cases s <;> rfl

theorem ConnectionStore.toJson_eq_of_hashInput {s t : ConnectionStore}
    (h : Agree s.hashInput t.hashInput) :
    s.toJson Link.path = t.toJson Link.path := by
  rw [toJson_path, toJson_path, delimits_text.rel h.tail]

theorem Connection.sameText {c d : Connection} (h : Agree c.hashInput d.hashInput) :
    (c.toJson Link.path).SameText (d.toJson Link.path) := by
  simp only [hashInput, List.append_assoc] at h
  obtain ⟨htype, h⟩ := delimits_text h.tail
  obtain ⟨hstore, h⟩ := delimits_optText h
  have hs : c.store.map (ConnectionStore.toJson Link.path) =
      d.store.map (ConnectionStore.toJson Link.path) := by
    have hstr := congrArg (Option.map Json.str) hstore
    rw [Option.map_map, Option.map_map] at hstr
    rwa [funext ConnectionStore.toJson_path]
  rw [toJson, toJson, htype, hs]
  exact .tagged _ (.append (.refl _) (Json.sameText_obj_iff.mp (delimits_json.rel h)))

theorem Connection.elementSameText {path path' : Path} {c d : Connection}
    (apart : Apart [c.elementHashInput path, c.hashInput] [d.elementHashInput path', d.hashInput])
    (h : Agree (c.elementHashInput path) (d.elementHashInput path')) :
    path = path' ∧ (c.toElementJson Link.path).SameText (d.toElementJson Link.path) := by
  simp only [elementHashInput, List.append_assoc] at h
  obtain ⟨hpath, h⟩ := delimits_text h.tail
  have hc := sameText (apart.tail.head (delimits_code.rel h))
  exact ⟨Path.ext hpath, .record (.field _ hc)⟩

namespace ConnectionValue

def inputs : ConnectionValue → List HashInput
  | .pointer r => [r.hashInput]
  | .embedded c => [c.hashInput]

theorem sameText {c d : ConnectionValue} (apart : Apart c.inputs d.inputs)
    (h : Agree c.hashInput d.hashInput) :
    (c.toJson Link.path).SameText (d.toJson Link.path) := by
  cases c with
  | pointer r =>
    cases d with
    | pointer s =>
      have hr := Reference.text_of_hashInput (apart.head (delimits_code.rel h.tail))
      rw [toJson, toJson, Reference.toJson_path hr]
      exact .refl _
    | embedded d => exact absurd (delimits_text h).1 (by decide)
  | embedded c =>
    cases d with
    | pointer s => exact absurd (delimits_text h).1 (by decide)
    | embedded d => exact Connection.sameText (apart.head (delimits_code.rel h.tail))

end ConnectionValue

namespace IdentifiedConnection

def inputs (c : IdentifiedConnection) : List HashInput := c.hashInput :: c.connection.inputs

theorem sameText {c d : IdentifiedConnection} (apart : Apart c.inputs d.inputs)
    (h : c.digest = d.digest) : (c.toJson Link.path).SameText (d.toJson Link.path) := by
  have hagree := apart.head h
  simp only [hashInput, List.append_assoc] at hagree
  obtain ⟨hid, hagree⟩ := delimits_text hagree.tail
  rw [toJson, toJson, hid]
  exact .record (.append (.refl _) (.field _ (ConnectionValue.sameText apart.tail hagree)))

end IdentifiedConnection

namespace StoreConnections

def inputs (g : StoreConnections) : List HashInput :=
  g.store.hashInput :: g.connections.flatMap IdentifiedConnection.inputs

def SameDigests (g k : StoreConnections) : Prop :=
  g.store.digest = k.store.digest ∧
    g.connections.map IdentifiedConnection.digest = k.connections.map IdentifiedConnection.digest

theorem delimits : Delimits SameDigests hashInput := by
  intro g k x y h
  simp only [hashInput, List.append_assoc] at h
  obtain ⟨hstore, h⟩ := delimits_code h
  obtain ⟨hconnections, h⟩ := delimits_codes h
  exact ⟨⟨hstore, hconnections⟩, h⟩

theorem sameText {g k : StoreConnections} (apart : Apart g.inputs k.inputs)
    (h : g.SameDigests k) : (g.toJson Link.path).SameText (k.toJson Link.path) := by
  have hstore := ConnectionStore.toJson_eq_of_hashInput (apart.head h.1)
  have hconnections : List.Forall₂ Json.SameText (g.connections.map (·.toJson Link.path))
      (k.connections.map (·.toJson Link.path)) := by
    rw [List.forall₂_map_left_iff, List.forall₂_map_right_iff]
    exact apart.tail.forall₂ h.2 fun _ _ _ _ => IdentifiedConnection.sameText
  rw [toJson, toJson, hstore]
  exact .record (.append (.refl _) (.listField _ hconnections))

end StoreConnections

namespace Runtime

def inputs (r : Runtime) : List HashInput :=
  r.hashInput :: (r.mappings.map Reference.hashInput ++
    r.connections.flatMap StoreConnections.inputs)

theorem sameText {r s : Runtime} (apart : Apart r.inputs s.inputs) (h : r.digest = s.digest) :
    (r.toJson Link.path).SameText (s.toJson Link.path) := by
  have hagree := apart.head h
  simp only [hashInput, List.append_assoc] at hagree
  obtain ⟨hmappings, hagree⟩ := delimits_codes hagree.tail
  have hgroups := StoreConnections.delimits.flatMap_end
    (fun g => List.append_ne_nil_of_left_ne_nil (code_ne_nil g.store.digest) _) hagree
  have hm : r.mappings.map (fun m => pointerJson "MAPPING" (m.toJson Link.path)) =
      s.mappings.map (fun m => pointerJson "MAPPING" (m.toJson Link.path)) := by
    have hpaths := Reference.toJsons_path apart.tail.left hmappings
    simpa [Function.comp_def] using congrArg (List.map (pointerJson "MAPPING")) hpaths
  have hg : List.Forall₂ Json.SameText (r.connections.map (·.toJson Link.path))
      (s.connections.map (·.toJson Link.path)) := by
    rw [List.forall₂_map_left_iff, List.forall₂_map_right_iff]
    exact apart.tail.right.related hgroups fun _ _ _ _ => StoreConnections.sameText
  rw [toJson, toJson, hm]
  exact .tagged _ (.append (.refl _) (.listField _ hg))

theorem elementSameText {path path' : Path} {r s : Runtime}
    (apart : Apart (r.elementHashInput path :: r.inputs) (s.elementHashInput path' :: s.inputs))
    (h : Agree (r.elementHashInput path) (s.elementHashInput path')) :
    path = path' ∧ (r.toElementJson Link.path).SameText (s.toElementJson Link.path) := by
  simp only [elementHashInput, List.append_assoc] at h
  obtain ⟨hpath, h⟩ := delimits_text h.tail
  exact ⟨Path.ext hpath, .record (.field _ (sameText apart.tail (delimits_code.rel h)))⟩

end Runtime

namespace RuntimeValue

def inputs : RuntimeValue → List HashInput
  | .pointer r => [r.hashInput]
  | .embedded r => r.inputs

theorem sameText {r s : RuntimeValue} (apart : Apart r.inputs s.inputs)
    (h : r.digest = s.digest) : (r.toJson Link.path).SameText (s.toJson Link.path) := by
  have hreference : ∀ {f : Family} {r : Reference f} {s : Runtime},
      ¬Agree r.hashInput s.hashInput := by
    intro f r s h
    rw [Reference.hashInput, Runtime.hashInput, List.append_assoc] at h
    exact absurd (delimits_tag h).1 (by decide)
  cases r with
  | pointer r =>
    cases s with
    | pointer s =>
      rw [toJson, toJson, Reference.toJson_path (Reference.text_of_hashInput (apart.head h))]
      exact .refl _
    | embedded s => exact absurd (apart.head h) hreference
  | embedded r =>
    cases s with
    | pointer s => exact absurd (apart.head h).symm hreference
    | embedded s => exact Runtime.sameText apart h

end RuntimeValue

namespace Execution

def inputs (e : Execution) : List HashInput := e.mapping.hashInput :: e.runtime.inputs

/-- What is hashed for an execution is the same, up to the text of its query. -/
def SameDigests (e f : Execution) : Prop :=
  e.query.SameText f.query ∧ e.mapping.digest = f.mapping.digest ∧
    e.runtime.digest = f.runtime.digest

theorem delimits : Delimits SameDigests hashInput := by
  intro e f x y h
  simp only [hashInput, List.append_assoc] at h
  obtain ⟨hquery, h⟩ := delimits_json h
  obtain ⟨hmapping, h⟩ := delimits_code h
  obtain ⟨hruntime, h⟩ := delimits_code h
  exact ⟨⟨hquery, hmapping, hruntime⟩, h⟩

theorem sameText {e f : Execution} (apart : Apart e.inputs f.inputs) (h : e.SameDigests f) :
    (e.toJson Link.path).SameText (f.toJson Link.path) := by
  obtain ⟨hquery, hmapping, hruntime⟩ := h
  have hm := Reference.text_of_hashInput (apart.head hmapping)
  have hr := RuntimeValue.sameText apart.tail hruntime
  rw [toJson, toJson, Reference.toJson_path hm]
  exact .tagged _ (.append (.append (.field _ hquery) (.refl _)) (.field _ hr))

end Execution

namespace Service

def inputs (path : Path) (s : Service) : List HashInput :=
  s.hashInput path :: (s.execution.toList.flatMap Execution.inputs ++ s.annotations.inputs)

theorem sameText {path path' : Path} {s t : Service}
    (apart : Apart (s.inputs path) (t.inputs path'))
    (h : Agree (s.hashInput path) (t.hashInput path')) :
    path = path' ∧ (s.toJson Link.path).SameText (t.toJson Link.path) := by
  simp only [hashInput, List.append_assoc] at h
  obtain ⟨hpath, h⟩ := delimits_text h.tail
  obtain ⟨hpattern, h⟩ := delimits_text h
  obtain ⟨hdocumentation, h⟩ := delimits_text h
  obtain ⟨howners, h⟩ := delimits_texts h
  obtain ⟨hflag, h⟩ := delimits_flag h
  obtain ⟨hexecution, h⟩ := Execution.delimits.optional h
  obtain ⟨hannotations, -⟩ := Annotations.record_eq apart.tail.right h.ending
  have he := optionRel_map (apart.tail.left.option hexecution fun _ _ => Execution.sameText)
  rw [toJson, toJson, hpattern, hdocumentation, howners, hflag, hannotations]
  exact ⟨Path.ext hpath, .record (.append (.append (.refl _) (.optField _ he)) (.refl _))⟩

end Service

theorem TextElement.toJson_eq {path path' : Path} {t u : TextElement}
    (h : Agree (t.hashInput path) (u.hashInput path')) : path = path' ∧ t.toJson = u.toJson := by
  simp only [hashInput, List.append_assoc] at h
  obtain ⟨hpath, h⟩ := delimits_text h.tail
  obtain ⟨hformat, h⟩ := delimits_text h
  rw [toJson, toJson, hformat, delimits_text.rel h]
  exact ⟨Path.ext hpath, rfl⟩

namespace FieldName

def SameDigests (m n : FieldName) : Prop :=
  m.owner.digest = n.owner.digest ∧ m.property = n.property ∧ m.written = n.written

theorem delimits : Delimits SameDigests hashInput := by
  intro m n x y h
  simp only [hashInput, List.append_assoc] at h
  obtain ⟨howner, h⟩ := delimits_code h
  obtain ⟨hproperty, h⟩ := delimits_text h
  obtain ⟨hwritten, h⟩ := delimits_text h
  exact ⟨⟨howner, hproperty, hwritten⟩, h⟩

theorem toJson_eq {m n : FieldName} (apart : Apart [m.owner.hashInput] [n.owner.hashInput])
    (h : m.SameDigests n) : m.toJson Link.path = n.toJson Link.path := by
  have howner := Reference.text_of_hashInput (apart.head h.1)
  rw [toJson, toJson, Reference.toJson_path howner, h.2.1, h.2.2]

end FieldName

namespace SerializerSchema

def inputs (path : Path) (s : SerializerSchema) : List HashInput :=
  s.hashInput path :: s.root.hashInput :: ((s.store.toList.flatMap fun r => [r.hashInput]) ++
    (s.included.map Reference.hashInput ++ s.fieldNames.flatMap fun n => [n.owner.hashInput]))

theorem toJson_eq {path path' : Path} {s t : SerializerSchema}
    (apart : Apart (s.inputs path) (t.inputs path'))
    (h : Agree (s.hashInput path) (t.hashInput path')) :
    path = path' ∧ s.toJson Link.path = t.toJson Link.path := by
  simp only [hashInput, List.append_assoc] at h
  obtain ⟨hpath, h⟩ := delimits_text h.tail
  obtain ⟨hformat, h⟩ := delimits_text h
  obtain ⟨hstore, h⟩ := delimits_optCode h
  obtain ⟨hroot, h⟩ := delimits_code h
  obtain ⟨hincluded, h⟩ := delimits_codes h
  have hnames := FieldName.delimits.flatMap_end
    (fun n => by simp [FieldName.hashInput, code_ne_nil]) h
  have hs : s.store.map (Reference.toJson Link.path) = t.store.map (Reference.toJson Link.path) :=
    eq_of_optionRel (optionRel_map (apart.tail.tail.left.option (optionRel_of_map hstore)
      fun _ _ hrs h => Reference.toJson_path (Reference.text_of_hashInput (hrs.head h))))
  have hr := Reference.toJson_path (Reference.text_of_hashInput (apart.tail.head hroot))
  have hi := Reference.toJsons_path apart.tail.tail.right.left hincluded
  have hn : s.fieldNames.map (·.toJson Link.path) = t.fieldNames.map (·.toJson Link.path) :=
    map_eq_of_forall₂
      (apart.tail.tail.right.right.related hnames fun _ _ _ _ => FieldName.toJson_eq)
  rw [toJson, toJson, hformat, hs, hr, hi, hn]
  exact ⟨Path.ext hpath, rfl⟩

end SerializerSchema
end ModelGraph
