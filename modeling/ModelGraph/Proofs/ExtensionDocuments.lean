import ModelGraph.Extension.Presets
import ModelGraph.Proofs.DomainDocuments

namespace ModelGraph

open Record Json

theorem TextElement.rereads : Rereads TextElement.ofJson? TextElement.toJson := by
  intro j t h
  simp only [TextElement.ofJson?, bind_eq_some, pure_eq_some] at h
  obtain ⟨r, -, format, -, content, -, rfl⟩ := h
  simp [toJson, ofJson?, ofJson?_toJson]

theorem GeneralizationView.rereads :
    Rereads GeneralizationView.ofJson? GeneralizationView.toJson := by
  intro j l h
  simp only [GeneralizationView.ofJson?, bind_eq_some, pure_eq_some] at h
  obtain ⟨r, -, source, -, target, -, rfl⟩ := h
  simp [toJson, ofJson?, ofJson?_toJson]

theorem ClassView.pair?_pairJson {first second : String} (h : first ≠ second) (a b : Double) :
    pair? first second (pairJson first second a b) = some (a, b) := by
  simp [pair?, pairJson, ofJson?_toJson, h, double?]

theorem ClassView.respells (names : Naming) :
    Respells ClassView.ofJson? (ClassView.toJson names) fun v => { v with shown := repath names _ v.shown } := by
  intro j v h
  simp only [ClassView.ofJson?, bind_eq_some, pure_eq_some] at h
  obtain ⟨r, -, id, -, shown, hs, ⟨x, y⟩, -, ⟨width, height⟩, -, rfl⟩ := h
  have hs := (Reference.respells names).of_lookup hs
  simp [toJson, ofJson?, ofJson?_toJson, hs, pair?_pairJson]

theorem Diagram.respells (names : Naming) :
    Respells Diagram.ofJson? (Diagram.toJson names) (Diagram.rebind (repath names)) := by
  intro j d h
  simp only [Diagram.ofJson?, bind_eq_some, pure_eq_some, list_eq] at h
  obtain ⟨r, -, views, hv, lines, hl, rfl⟩ := h
  have hv := (ClassView.respells names).of_list hv
  have hl := GeneralizationView.rereads.of_list hl
  simp [toJson, rebind, ofJson?, ofJson?_toJson, hv, hl]

theorem HttpMethod.ofJson?_text (m : HttpMethod) : ofJson? (.str m.text) = some m := by
  cases m <;> rfl

theorem ParameterLocation.ofJson?_text (l : ParameterLocation) :
    ofJson? (.str l.text) = some l := by
  cases l <;> rfl

theorem SchemaFormat.ofJson?_text (f : SchemaFormat) : ofJson? (.str f.text) = some f := by
  cases f <;> rfl

theorem ServiceParameter.rereads : Rereads ServiceParameter.ofJson? ServiceParameter.toJson := by
  intro j p h
  simp only [ServiceParameter.ofJson?, bind_eq_some, pure_eq_some] at h
  obtain ⟨r, -, name, -, location, -, required, -, rfl⟩ := h
  simp [toJson, ofJson?, ofJson?_toJson, ParameterLocation.ofJson?_text]

namespace HttpService

def written (s : HttpService) : Record :=
  field "id" (.str s.id) ++ field "path" (.str s.path) ++ field "method" (.str s.method.text) ++
    listField "parameters" (s.parameters.map ServiceParameter.toJson)

theorem rereads {j : Json} {s : HttpService} (h : ofJson? j = some s) :
    ofJson? (Record.toJson s.written) = some s := by
  simp only [ofJson?, bind_eq_some, pure_eq_some, list_eq] at h
  obtain ⟨r, -, id, -, path, -, method, -, parameters, hp, rfl⟩ := h
  have hp := ServiceParameter.rereads.of_list hp
  simp [written, ofJson?, ofJson?_toJson, HttpMethod.ofJson?_text, hp]

end HttpService

namespace ServiceNode

theorem toJsons_eq (nodes : List ServiceNode) : toJsons nodes = nodes.map toJson := by
  induction nodes with
  | nil => rfl
  | cons n nodes ih => rw [toJsons, ih, List.map_cons]

theorem read_toJson {fuel : Nat} {nested : Bool} {j : Json} {n : ServiceNode}
    (h : read fuel nested j = some n) {more : Nat} (hm : n.toJson.depth < more) (within : Bool) :
    read more within n.toJson = some n := by
  induction fuel generalizing nested j n more within with
  | zero => cases h
  | succ fuel ih =>
    cases more with
    | zero => exact absurd hm (Nat.not_lt_zero _)
    | succ more =>
      obtain ⟨⟨tag, document⟩, -, h⟩ := bind_eq_some.mp h
      simp only at h
      split at h
      · obtain ⟨s, hs, rfl⟩ := Option.map_eq_some_iff.mp h
        have hs := HttpService.rereads hs
        have hw : toJson (.service s) = tagged "service" s.written := rfl
        have ht : tagged? ["service", "serviceGroup"] within (toJson (.service s)) =
            some ("service", Record.toJson s.written) := by
          rw [hw, tagged?_tagged (by simp)]
          simp [HttpService.written]
        simp [read, ht, hs]
      · simp only [bind_eq_some, pure_eq_some, list_eq] at h
        obtain ⟨r, -, id, -, path, -, elements, he, rfl⟩ := h
        have he : readDefault [] (list? (read more true)) (listed (elements.map toJson)) =
            some elements := by
          apply readDefault_listed
          intro n hn
          obtain ⟨i, hi⟩ := mem_of_list he n hn
          apply ih hi
          rw [toJson, toJsons_eq, tagged_eq] at hm
          apply Nat.lt_of_succ_lt_succ (Nat.lt_trans _ hm)
          apply depth_lt_of_listed "elements" _ (List.mem_map_of_mem (f := toJson) hn)
          simp
        simp [toJson, toJsons_eq, read, tagged?_tagged, ofJson?_toJson, he]
      · cases h

theorem rereads : Rereads ServiceNode.ofJson? ServiceNode.toJson := by
  intro j n h
  exact read_toJson h (Nat.lt_succ_self _) false

end ServiceNode

theorem ServiceStore.respells (names : Naming) :
    Respells ServiceStore.ofJson? (ServiceStore.toJson names) (ServiceStore.rebind (repath names)) := by
  intro j s h
  simp only [ServiceStore.ofJson?, bind_eq_some, pure_eq_some, list_eq, optText_eq] at h
  obtain ⟨r, -, includes, hi, description, hd, elements, he, rfl⟩ := h
  have hi := (Reference.respells names).of_list hi
  have hd := text_rereads.of_optional (fun _ => rfl) hd
  have he := ServiceNode.rereads.of_list he
  simp [toJson, rebind, ServiceNode.toJsons_eq, ofJson?, ofJson?_toJson, hi, hd, he]

theorem ServicePointer.respells (names : Naming) :
    Respells ServicePointer.ofJson? (ServicePointer.toJson names) fun p => { p with store := repath names _ p.store } := by
  intro j p h
  simp only [ServicePointer.ofJson?, bind_eq_some, required_eq] at h
  obtain ⟨r, -, h⟩ := h
  obtain ⟨i, -, h⟩ := Option.bind_eq_some_iff.mp h
  simp only [bind_eq_some, pure_eq_some] at h
  obtain ⟨s, -, store, hs, service, -, rfl⟩ := h
  have hs := (Reference.respells names).of_lookup hs
  simp [toJson, ofJson?, ofJson?_toJson, hs]

theorem ClassMappingExtension.services_respells (names : Naming) {j : Json}
    {e : ClassMappingExtension} (h : servicesOfJson? j = some e) :
    ∃ pointers, e = .services pointers ∧
      servicesOfJson? (servicesToJson names pointers) = some (e.rebind (repath names)) := by
  simp only [servicesOfJson?, bind_eq_some, pure_eq_some, list_eq] at h
  obtain ⟨r, -, pointers, hp, rfl⟩ := h
  have hp := (ServicePointer.respells names).of_list hp
  refine ⟨pointers, rfl, ?_⟩
  simp [rebind, servicesOfJson?, servicesToJson, ofJson?_toJson, hp]

theorem FieldName.respells (names : Naming) :
    Respells FieldName.ofJson? (FieldName.toJson names) fun n => { n with owner := repath names _ n.owner } := by
  intro j n h
  simp only [FieldName.ofJson?, bind_eq_some, pure_eq_some] at h
  obtain ⟨r, -, owner, ho, property, -, written, -, rfl⟩ := h
  have ho := (Reference.respells names).of_lookup ho
  simp [toJson, ofJson?, ofJson?_toJson, ho]

theorem SerializerSchema.respells (names : Naming) :
    Respells SerializerSchema.ofJson? (SerializerSchema.toJson names) (SerializerSchema.rebind (repath names)) := by
  intro j s h
  simp only [SerializerSchema.ofJson?, bind_eq_some, pure_eq_some, list_eq, optional_eq] at h
  obtain ⟨r, -, format, -, store, hs, root, hr, included, hi, fieldNames, hf, rfl⟩ := h
  have hs := (Reference.respells names).of_optional (fun _ => rfl) hs
  have hr := (Reference.respells names).of_lookup hr
  have hi := (Reference.respells names).of_list hi
  have hf := (FieldName.respells names).of_list hf
  simp [toJson, rebind, ofJson?, ofJson?_toJson, SchemaFormat.ofJson?_text, hs, hr, hi, hf]

end ModelGraph
