import ModelGraph.Proofs.DomainDocuments

namespace ModelGraph

open Record Json

/-- The store for which its path stands: the model itself where it is the path kept for that. -/
def ConnectionStore.settled : ConnectionStore → ConnectionStore
  | .model => .model
  | .store r => if r.path.text = modelPath then .model else .store r

def Connection.settled (c : Connection) : Connection :=
  { c with store := c.store.map ConnectionStore.settled }

def ConnectionValue.settled : ConnectionValue → ConnectionValue
  | .pointer r => .pointer r
  | .embedded c => .embedded c.settled

def IdentifiedConnection.settled (c : IdentifiedConnection) : IdentifiedConnection :=
  { c with connection := c.connection.settled }

def StoreConnections.settled (g : StoreConnections) : StoreConnections where
  store := g.store.settled
  connections := g.connections.map IdentifiedConnection.settled

def Runtime.settled (r : Runtime) : Runtime :=
  { r with connections := r.connections.map StoreConnections.settled }

def RuntimeValue.settled : RuntimeValue → RuntimeValue
  | .pointer r => .pointer r
  | .embedded r => .embedded r.settled

def Execution.settled (e : Execution) : Execution := { e with runtime := e.runtime.settled }

def Service.settled (s : Service) : Service :=
  { s with execution := s.execution.map Execution.settled }

namespace ConnectionStore

theorem toJson_eq (names : Naming) (s : ConnectionStore) :
    s.toJson names = .str (s.rebind (repath names)).path := by
  cases s <;> rfl

theorem ofPath_rebind (names : Naming) (path : String) :
    ofPath ((ofPath path).rebind (repath names)).path =
      ((ofPath path).rebind (repath names)).settled := by
  by_cases h : path = modelPath
  · have hp : ofPath path = .model := if_pos h
    rw [hp]
    rfl
  · have hp : ofPath path = .store (.ofText path) := if_neg h
    rw [hp]
    rfl

end ConnectionStore

namespace Connection

def specific (members : Record) : Record :=
  members.filter fun m => m.1 != "_type" && m.1 != "element"

theorem specific_sortMembers (members : Record) :
    specific (sortMembers members) = sortMembers (specific members) :=
  filter_sortMembers fun k => k != "_type" && k != "element"

theorem specific_specific (members : Record) : specific (specific members) = specific members := by
  rw [specific, specific, List.filter_filter]
  simp

theorem lookup_specific {key : String} (hk : key = "_type" ∨ key = "element")
    (members : Record) : (specific members).lookup key = none := by
  rw [specific, lookup_filter_key fun k => k != "_type" && k != "element", if_neg]
  rcases hk with rfl | rfl <;> simp

/-- The specification of a connection that was read. -/
structure IsSpecification (members : Record) : Prop where
  ordered : sortMembers members = members
  specific : specific members = members

theorem isSpecification_sortMembers (members : Record) :
    IsSpecification (sortMembers (specific members)) where
  ordered := (ordered_sortMembers _).sortMembers_eq
  specific := by rw [specific_sortMembers, specific_specific]

theorem IsSpecification.lookup {members : Record} (h : IsSpecification members) {key : String}
    (hk : key = "_type" ∨ key = "element") : members.lookup key = none := by
  rw [← h.specific, lookup_specific hk]

theorem ofJson?_obj (members : Record) :
    ofJson? (.obj members) = (do
      let type ← (members.lookup "_type").bind text?
      let element ← readOptional text? (members.lookup "element")
      return {
        type
        store := element.map ConnectionStore.ofPath
        specification := sortMembers (specific members) }) := by
  rw [ofJson?, optText_eq]
  rfl

theorem ofJson?_tagged {type : String} {element : Option String} {members : Record}
    (h : IsSpecification members) :
    ofJson? (tagged type (optField "element" (element.map .str) ++ members)) =
      some { type, store := element.map ConnectionStore.ofPath, specification := members } := by
  have hs : sortMembers (specific (field "_type" (.str type) ++
      (optField "element" (element.map .str) ++ members))) = members := by
    have ht : specific (field "_type" (.str type)) = [] := by simp [field, specific]
    have he : specific (optField "element" (element.map .str)) = [] := by
      cases element <;> simp [optField, specific]
    have hm : specific (field "_type" (.str type) ++
        (optField "element" (element.map .str) ++ members)) =
          specific (field "_type" (.str type)) ++
            (specific (optField "element" (element.map .str)) ++ specific members) := by
      simp [specific]
    rw [hm, ht, he, h.specific]
    exact h.ordered
  have he : readOptional text? (element.map .str) = some element := by
    cases element <;> rfl
  rw [tagged_eq, Record.toJson, object, ofJson?_obj]
  simp [h.lookup, h.ordered, he, specific_sortMembers, hs]

theorem respells (names : Naming) :
    Respells Connection.ofJson? (Connection.toJson names)
      fun c => (c.rebind (repath names)).settled := by
  intro j c h
  cases j with
  | obj members =>
    rw [ofJson?_obj] at h
    simp only [bind_eq_some, pure_eq_some] at h
    obtain ⟨type, -, element, -, rfl⟩ := h
    have hw : (element.map ConnectionStore.ofPath).map (ConnectionStore.toJson names) =
        (element.map fun s => ((ConnectionStore.ofPath s).rebind (repath names)).path).map .str := by
      rw [Option.map_map, Option.map_map]
      exact Option.map_congr fun s _ => ConnectionStore.toJson_eq names _
    rw [toJson, hw, ofJson?_tagged (isSpecification_sortMembers members)]
    simp [rebind, settled, Function.comp_def, ConnectionStore.ofPath_rebind]
  | _ => cases h

theorem type_of_ofJson? {j : Json} {c : Connection} (h : ofJson? j = some c) :
    (j.member? "_type").bind text? = some c.type := by
  cases j with
  | obj members =>
    rw [ofJson?_obj] at h
    simp only [bind_eq_some, pure_eq_some] at h
    obtain ⟨type, ht, element, -, rfl⟩ := h
    exact ht
  | _ => cases h

end Connection

theorem ConnectionValue.respells (names : Naming) :
    Respells ConnectionValue.ofJson? (ConnectionValue.toJson names)
      fun x => (x.rebind (repath names)).settled := by
  intro j v h
  rw [ofJson?] at h
  split at h
  · simp only [bind_eq_some, pure_eq_some] at h
    obtain ⟨r, -, target, ht, rfl⟩ := h
    have ht := (Reference.respells names).of_lookup ht
    have hm : (toJson names (.pointer target)).member? "_type" =
        some (.str "connectionPointer") := by
      simp [toJson, tagged_eq, Record.toJson, object, member?]
    rw [ofJson?, hm]
    simp [toJson, tagged_eq, ofJson?_toJson, ht, rebind, settled]
  · next hp =>
    obtain ⟨c, hc, rfl⟩ := Option.map_eq_some_iff.mp h
    have hw := Connection.respells names hc
    have hne : c.type ≠ "connectionPointer" := by
      intro he
      exact hp (he ▸ Connection.type_of_ofJson? hc)
    have ht := Connection.type_of_ofJson? hw
    have hne : ¬some (c.rebind (repath names)).settled.type = some "connectionPointer" :=
      fun he => hne (Option.some.inj he)
    rw [toJson, ofJson?, ht, if_neg hne, hw]
    rfl

theorem IdentifiedConnection.respells (names : Naming) :
    Respells IdentifiedConnection.ofJson? (IdentifiedConnection.toJson names)
      fun x => (x.rebind (repath names)).settled := by
  intro j c h
  simp only [IdentifiedConnection.ofJson?, bind_eq_some, pure_eq_some] at h
  obtain ⟨r, -, id, -, connection, hc, rfl⟩ := h
  have hc := (ConnectionValue.respells names).of_lookup hc
  simp [toJson, ofJson?, ofJson?_toJson, hc, rebind, settled]

theorem pointerPath?_pointerJson (type path : String) :
    pointerPath? (pointerJson type (.str path)) = some path := by
  simp [pointerPath?, pointerJson, ofJson?_toJson]

theorem StoreConnections.respells (names : Naming) :
    Respells StoreConnections.ofJson? (StoreConnections.toJson names)
      fun x => (x.rebind (repath names)).settled := by
  intro j g h
  simp only [StoreConnections.ofJson?, bind_eq_some, pure_eq_some, list_eq] at h
  obtain ⟨r, -, path, -, connections, hc, rfl⟩ := h
  have hc := (IdentifiedConnection.respells names).of_list hc
  simp [toJson, ofJson?, ofJson?_toJson, ConnectionStore.toJson_eq, pointerPath?_pointerJson,
    ConnectionStore.ofPath_rebind, hc, rebind, settled, Function.comp_def]

theorem Runtime.respells (names : Naming) :
    Respells Runtime.ofJson? (Runtime.toJson names)
      fun x => (x.rebind (repath names)).settled := by
  intro j t h
  simp only [Runtime.ofJson?, bind_eq_some, pure_eq_some, list_eq] at h
  obtain ⟨r, -, tag, -, mappings, -, connections, hc, rfl⟩ := h
  have hm : readDefault [] (list? pointerPath?) (listed (mappings.map fun s =>
      pointerJson "MAPPING" ((Reference.ofText (f := .mapping) s).toJson names))) =
        some (mappings.map fun s => (names (Reference.ofText (f := .mapping) s).link).text) :=
    respell_listed fun s _ => pointerPath?_pointerJson "MAPPING" _
  have hc := (StoreConnections.respells names).of_list hc
  simp [toJson, ofJson?, tagged_eq, ofJson?_toJson, List.map_map, Function.comp_def, hm, hc,
    rebind, settled]
  exact fun s _ => rfl

theorem RuntimeValue.respells (names : Naming) :
    Respells RuntimeValue.ofJson? (RuntimeValue.toJson names)
      fun x => (x.rebind (repath names)).settled := by
  intro j v h
  rw [ofJson?] at h
  split at h
  · simp only [bind_eq_some, pure_eq_some] at h
    obtain ⟨r, -, target, ht, rfl⟩ := h
    have ht := (Reference.respells names).of_lookup ht
    have hm : (toJson names (.pointer target)).member? "_type" =
        some (.str "runtimePointer") := by
      simp [toJson, tagged_eq, Record.toJson, object, member?]
    rw [ofJson?, hm]
    simp [toJson, tagged_eq, ofJson?_toJson, ht, rebind, settled]
  · obtain ⟨t, ht, rfl⟩ := Option.map_eq_some_iff.mp h
    have hm : (toJson names (.embedded t)).member? "_type" = some (.str "engineRuntime") := by
      simp [toJson, Runtime.toJson, tagged_eq, Record.toJson, object, member?]
    rw [ofJson?, hm, if_neg (by simp), toJson, Runtime.respells names ht]
    rfl

theorem Execution.respells (names : Naming) :
    Respells Execution.ofJson? (Execution.toJson names)
      fun x => (x.rebind (repath names)).settled := by
  intro j e h
  simp only [Execution.ofJson?, bind_eq_some, pure_eq_some] at h
  obtain ⟨r, -, tag, -, query, -, mapping, hm, runtime, hr, rfl⟩ := h
  have hm := (Reference.respells names).of_lookup hm
  have hr := (RuntimeValue.respells names).of_lookup hr
  simp [toJson, ofJson?, tagged_eq, ofJson?_toJson, hm, hr, rebind, settled]

theorem Service.respells (names : Naming) :
    Respells Service.ofJson? (Service.toJson names)
      fun x => (x.rebind (repath names)).settled := by
  intro j s h
  simp only [Service.ofJson?, bind_eq_some, pure_eq_some, texts_eq, optional_eq,
    Annotations.ofRecord?_eq] at h
  obtain ⟨r, -, pattern, -, documentation, -, owners, ho, auto, -, execution, he, annotations, ha,
    rfl⟩ := h
  have ho := text_rereads.of_list ho
  have he := (Execution.respells names).of_optional (fun _ => rfl) he
  have ha := Annotations.respells names ha
  simp [toJson, ofJson?, ofJson?_toJson, ho, he, ha, rebind, settled, Function.comp_def]

theorem Connection.element_respells (names : Naming) :
    Respells Connection.ofElementJson? (Connection.toElementJson names)
      fun x => (x.rebind (repath names)).settled := by
  intro j c h
  simp only [ofElementJson?, bind_eq_some] at h
  obtain ⟨r, -, hc⟩ := h
  have hc := (Connection.respells names).of_lookup hc
  simp [toElementJson, ofElementJson?, ofJson?_toJson, hc]

theorem Runtime.element_respells (names : Naming) :
    Respells Runtime.ofElementJson? (Runtime.toElementJson names)
      fun x => (x.rebind (repath names)).settled := by
  intro j t h
  simp only [ofElementJson?, bind_eq_some] at h
  obtain ⟨r, -, ht⟩ := h
  have ht := (Runtime.respells names).of_lookup ht
  simp [toElementJson, ofElementJson?, ofJson?_toJson, ht]

theorem ConnectionStore.settled_ofPath (path : String) : (ofPath path).settled = ofPath path := by
  by_cases h : path = modelPath
  · have hp : ofPath path = .model := if_pos h
    rw [hp]
    rfl
  · have hp : ofPath path = .store (.ofText path) := if_neg h
    rw [hp]
    exact if_neg h

theorem Connection.settled_of_read {j : Json} {c : Connection} (h : ofJson? j = some c) :
    c.settled = c := by
  cases j with
  | obj members =>
    rw [ofJson?_obj] at h
    simp only [bind_eq_some, pure_eq_some] at h
    obtain ⟨type, -, element, -, rfl⟩ := h
    simp [settled, Function.comp_def, ConnectionStore.settled_ofPath]
  | _ => cases h

theorem ConnectionValue.settled_of_read {j : Json} {v : ConnectionValue}
    (h : ofJson? j = some v) : v.settled = v := by
  rw [ofJson?] at h
  split at h
  · simp only [bind_eq_some, pure_eq_some] at h
    obtain ⟨r, -, target, -, rfl⟩ := h
    rfl
  · obtain ⟨c, hc, rfl⟩ := Option.map_eq_some_iff.mp h
    exact congrArg embedded (Connection.settled_of_read hc)

theorem IdentifiedConnection.settled_of_read {j : Json} {c : IdentifiedConnection}
    (h : ofJson? j = some c) : c.settled = c := by
  simp only [ofJson?, bind_eq_some, pure_eq_some] at h
  obtain ⟨r, -, id, -, connection, hc, rfl⟩ := h
  obtain ⟨i, -, hc⟩ := Option.bind_eq_some_iff.mp hc
  rw [settled, ConnectionValue.settled_of_read hc]

theorem StoreConnections.settled_of_read {j : Json} {g : StoreConnections}
    (h : ofJson? j = some g) : g.settled = g := by
  simp only [ofJson?, bind_eq_some, pure_eq_some, list_eq] at h
  obtain ⟨r, -, path, -, connections, hc, rfl⟩ := h
  rw [settled, ConnectionStore.settled_ofPath,
    map_eq_of_list (fun _ _ h => IdentifiedConnection.settled_of_read h) hc]

theorem Runtime.settled_of_read {j : Json} {t : Runtime} (h : ofJson? j = some t) :
    t.settled = t := by
  simp only [ofJson?, bind_eq_some, pure_eq_some, list_eq] at h
  obtain ⟨r, -, tag, -, mappings, -, connections, hc, rfl⟩ := h
  rw [settled, map_eq_of_list (fun _ _ h => StoreConnections.settled_of_read h) hc]

theorem RuntimeValue.settled_of_read {j : Json} {v : RuntimeValue} (h : ofJson? j = some v) :
    v.settled = v := by
  rw [ofJson?] at h
  split at h
  · simp only [bind_eq_some, pure_eq_some] at h
    obtain ⟨r, -, target, -, rfl⟩ := h
    rfl
  · obtain ⟨t, ht, rfl⟩ := Option.map_eq_some_iff.mp h
    exact congrArg embedded (Runtime.settled_of_read ht)

theorem Execution.settled_of_read {j : Json} {e : Execution} (h : ofJson? j = some e) :
    e.settled = e := by
  simp only [ofJson?, bind_eq_some, pure_eq_some] at h
  obtain ⟨r, -, tag, -, query, -, mapping, -, runtime, hr, rfl⟩ := h
  obtain ⟨i, -, hr⟩ := Option.bind_eq_some_iff.mp hr
  rw [settled, RuntimeValue.settled_of_read hr]

theorem Service.settled_of_read {j : Json} {s : Service} (h : ofJson? j = some s) :
    s.settled = s := by
  simp only [ofJson?, bind_eq_some, pure_eq_some, optional_eq] at h
  obtain ⟨r, -, pattern, -, documentation, -, owners, -, auto, -, execution, he, annotations, -,
    rfl⟩ := h
  rw [settled, map_eq_of_optional (fun _ _ h => Execution.settled_of_read h) he]

theorem Connection.settled_of_element {j : Json} {c : Connection}
    (h : ofElementJson? j = some c) : c.settled = c := by
  simp only [ofElementJson?, bind_eq_some] at h
  obtain ⟨r, -, hc⟩ := h
  obtain ⟨i, -, hc⟩ := Option.bind_eq_some_iff.mp hc
  exact settled_of_read hc

theorem Runtime.settled_of_element {j : Json} {t : Runtime} (h : ofElementJson? j = some t) :
    t.settled = t := by
  simp only [ofElementJson?, bind_eq_some] at h
  obtain ⟨r, -, ht⟩ := h
  obtain ⟨i, -, ht⟩ := Option.bind_eq_some_iff.mp ht
  exact settled_of_read ht

end ModelGraph
