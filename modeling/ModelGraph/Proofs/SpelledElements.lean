import ModelGraph.Proofs.Conformance
import ModelGraph.Proofs.ExtensionDocuments
import ModelGraph.Proofs.RuntimeDocuments

namespace ModelGraph

open Record Json Form

variable {n : Nat}

theorem Stereotype.spells : Spells n stereotype Stereotype.ofJson? (toJson Link.path) := by
  intro j s hj h
  simp only [ofJson?, bind_eq_some, pure_eq_some, required_eq, text_eq] at h
  obtain ⟨r, hr, profile, hp, name, hn, rfl⟩ := h
  have ht := tidies hj.succ hr
  have hp := reference_spells.needed ht hp
  have hn := text_spells.needed ht hn
  apply record_tells hj.inOrder hr rfl (by simp)
  simpa using ⟨hp, hn⟩

theorem TaggedValue.spells : Spells n taggedValue TaggedValue.ofJson? (toJson Link.path) := by
  intro j t hj h
  simp only [ofJson?, bind_eq_some, pure_eq_some, required_eq, text_eq] at h
  obtain ⟨r, hr, ⟨profile, tag⟩, htag, value, hv, rfl⟩ := h
  obtain ⟨v, hlookup, htag⟩ := Option.bind_eq_some_iff.mp htag
  simp only [bind_eq_some, pure_eq_some, Prod.mk.injEq] at htag
  obtain ⟨r', hr', profile, hp, tag, hn, rfl, rfl⟩ := htag
  have ht := tidies hj.succ hr
  have hv := text_spells.needed ht hv
  have hinner := ht _ _ hlookup
  have ht' := tidies hinner.succ hr'
  have hp := reference_spells.needed ht' hp
  have hn := text_spells.needed ht' hn
  have htag : stereotype.Tells v (Record.toJson (.field "profile" (profile.toJson Link.path) ++
      .field "value" (.str tag))) := by
    apply record_tells hinner.inOrder hr' rfl (by simp)
    simpa using ⟨hp, hn⟩
  have htag := htag.needed
  rw [← hlookup] at htag
  apply record_tells hj.inOrder hr rfl (by simp)
  simpa using ⟨htag, hv⟩

theorem Annotations.tells {r : Record} {a : Annotations} (ht : Tidies n r)
    (h : Annotations.ofRecord? r = some a) :
    TellsAt (Form.listed stereotype) (r.lookup "stereotypes")
      (Record.listed (a.stereotypes.map (Stereotype.toJson Link.path))) ∧
    TellsAt (Form.listed taggedValue) (r.lookup "taggedValues")
      (Record.listed (a.taggedValues.map (TaggedValue.toJson Link.path))) := by
  simp only [ofRecord?, bind_eq_some, pure_eq_some, list_eq] at h
  obtain ⟨stereotypes, hs, taggedValues, hv, rfl⟩ := h
  exact ⟨Stereotype.spells.listed ht hs, TaggedValue.spells.listed ht hv⟩

theorem Profile.tells {j : Json} {p : Profile} (hj : j.IsTidy n) (h : Profile.ofJson? j = some p) :
    (record Form.profile).Tells j p.toJson := by
  simp only [ofJson?, bind_eq_some, pure_eq_some, texts_eq] at h
  obtain ⟨r, hr, stereotypes, hs, tags, htags, rfl⟩ := h
  have ht := tidies hj.succ hr
  have hs := text_spells.listed ht hs
  have htags := text_spells.listed ht htags
  apply record_tells hj.inOrder hr rfl (by simp)
  simpa [Form.profile] using ⟨hs, htags⟩

theorem Multiplicity.spells : Spells n multiplicity Multiplicity.ofJson? toJson := by
  intro j m hj h
  simp only [ofJson?, bind_eq_some, pure_eq_some, required_eq, optional_eq] at h
  obtain ⟨r, hr, lower, hl, upper, hu, rfl⟩ := h
  have ht := tidies hj.succ hr
  have hl := nat32_spells.needed ht hl
  have hu := nat32_spells.optional ht nat32_solid hu
  apply record_tells hj.inOrder hr rfl (by simp)
  simpa using ⟨hl, hu⟩

theorem Property.spells : Spells n property Property.ofJson? (toJson Link.path) := by
  intro j p hj h
  simp only [ofJson?, bind_eq_some, pure_eq_some, required_eq, text_eq] at h
  obtain ⟨r, hr, name, hn, type, hy, m, hm, annotations, ha, rfl⟩ := h
  have ht := tidies hj.succ hr
  have hn := text_spells.needed ht hn
  have hy := reference_spells.needed ht hy
  have hm := Multiplicity.spells.needed ht hm
  have ha := Annotations.tells ht ha
  apply record_tells hj.inOrder hr rfl (by simp)
  simpa [Form.annotations] using ⟨hn, hy, hm, ha⟩

theorem DerivedProperty.spells :
    Spells n derivedProperty DerivedProperty.ofJson? (toJson Link.path) := by
  intro j p hj h
  simp only [ofJson?, bind_eq_some, pure_eq_some, required_eq, text_eq, value_eq] at h
  obtain ⟨r, hr, name, hn, type, hy, m, hm, annotations, ha, rfl⟩ := h
  have ht := tidies hj.succ hr
  have hn := text_spells.needed ht hn
  have hy := reference_spells.needed ht hy
  have hm := Multiplicity.spells.needed ht hm
  have ha := Annotations.tells ht ha
  have hvalue := fun k => tellsAt_value (o := r.lookup k)
  apply record_tells hj.inOrder hr rfl (by simp)
  simpa [Form.annotations] using ⟨hn, hvalue "parameters", hy, hm, hvalue "body", ha⟩

theorem Constraint.spells : Spells n constraint Constraint.ofJson? toJson := by
  intro j c hj h
  simp only [ofJson?, bind_eq_some, pure_eq_some, text_eq, requiredValue_eq] at h
  obtain ⟨r, hr, name, hn, definition, hd, rfl⟩ := h
  have ht := tidies hj.succ hr
  have hn := text_spells.needed ht hn
  apply record_tells hj.inOrder hr rfl (by simp)
  simpa [hd] using ⟨hn, tellsAt_free rfl⟩

theorem Class.tells {j : Json} {c : Class} (hj : j.IsTidy n) (h : Class.ofJson? j = some c) :
    (record Form.class).Tells j (c.toJson Link.path) := by
  simp only [ofJson?, bind_eq_some, pure_eq_some, list_eq] at h
  obtain ⟨r, hr, superTypes, hs, properties, hp, derived, hd, constraints, hc, annotations, ha,
    rfl⟩ := h
  have ht := tidies hj.succ hr
  have hs := reference_spells.listed ht hs
  have hp := Property.spells.listed ht hp
  have hd := DerivedProperty.spells.listed ht hd
  have hc := Constraint.spells.listed ht hc
  have ha := Annotations.tells ht ha
  apply record_tells hj.inOrder hr rfl (by simp)
  simpa [Form.class, Form.annotations] using ⟨hs, hp, hd, hc, ha⟩

theorem Association.tells {j : Json} {a : Association} (hj : j.IsTidy n)
    (h : Association.ofJson? j = some a) : (record Form.association).Tells j (a.toJson Link.path) := by
  simp only [ofJson?, bind_eq_some, pure_eq_some, list_eq] at h
  obtain ⟨r, hr, properties, hp, derived, hd, annotations, ha, rfl⟩ := h
  have ht := tidies hj.succ hr
  have hp := Property.spells.listed ht hp
  have hd := DerivedProperty.spells.listed ht hd
  have ha := Annotations.tells ht ha
  apply record_tells hj.inOrder hr rfl (by simp)
  simpa [Form.association, Form.annotations] using ⟨hp, hd, ha⟩

theorem EnumValue.spells : Spells n enumValue EnumValue.ofJson? (toJson Link.path) := by
  intro j v hj h
  simp only [ofJson?, bind_eq_some, pure_eq_some, text_eq] at h
  obtain ⟨r, hr, name, hn, annotations, ha, rfl⟩ := h
  have ht := tidies hj.succ hr
  have hn := text_spells.needed ht hn
  have ha := Annotations.tells ht ha
  apply record_tells hj.inOrder hr rfl (by simp)
  simpa [Form.annotations] using ⟨hn, ha⟩

theorem Enumeration.tells {j : Json} {e : Enumeration} (hj : j.IsTidy n)
    (h : Enumeration.ofJson? j = some e) : (record Form.enumeration).Tells j (e.toJson Link.path) := by
  simp only [ofJson?, bind_eq_some, pure_eq_some, list_eq] at h
  obtain ⟨r, hr, values, hv, annotations, ha, rfl⟩ := h
  have ht := tidies hj.succ hr
  have hv := EnumValue.spells.listed ht hv
  have ha := Annotations.tells ht ha
  apply record_tells hj.inOrder hr rfl (by simp)
  simpa [Form.enumeration, Form.annotations] using ⟨hv, ha⟩

theorem Parameter.spells : Spells n parameter Parameter.ofJson? (toJson Link.path) := by
  intro j p hj h
  simp only [ofJson?, bind_eq_some, pure_eq_some, required_eq, text_eq, optText_eq] at h
  obtain ⟨r, hr, kind, hk, name, hn, type, hy, m, hm, rfl⟩ := h
  have ht := tidies hj.succ hr
  have hk := text_spells.optional ht text_solid hk
  have hn := text_spells.needed ht hn
  have hy := reference_spells.needed ht hy
  have hm := Multiplicity.spells.needed ht hm
  apply record_tells hj.inOrder hr rfl (by simp)
  simpa using ⟨hk, hn, hy, hm⟩

theorem Function.tells {j : Json} {f : Function} (hj : j.IsTidy n)
    (h : Function.ofJson? j = some f) : (record Form.function).Tells j (f.toJson Link.path) := by
  simp only [ofJson?, bind_eq_some, pure_eq_some, required_eq, list_eq] at h
  obtain ⟨r, hr, parameters, hp, type, hy, m, hm, body, hb, annotations, ha, rfl⟩ := h
  have ht := tidies hj.succ hr
  have hp := Parameter.spells.listed ht hp
  have hy := reference_spells.needed ht hy
  have hm := Multiplicity.spells.needed ht hm
  have hb := tellsAt_values hb
  have ha := Annotations.tells ht ha
  apply record_tells hj.inOrder hr rfl (by simp)
  simpa [Form.function, Form.annotations] using ⟨hp, hy, hm, hb, ha⟩

theorem said_of_text {o : Option Json} {a : Option String} (h : readOptional text? o = some a) :
    said (a.map .str) = said o := by
  cases o with
  | none =>
    cases h
    rfl
  | some j =>
    rw [readOptional] at h
    split at h
    · next hnull =>
      cases h
      cases j <;> first | rfl | cases hnull
    · obtain ⟨s, hs, rfl⟩ := Option.map_eq_some_iff.mp h
      rw [eq_str_of_text? hs, Option.map_some]

theorem ConnectionStore.toJson_ofPath (path : String) :
    (ofPath path).toJson Link.path = .str path := by
  by_cases h : path = modelPath
  · have hp : ofPath path = .model := if_pos h
    rw [hp, toJson, h]
  · have hp : ofPath path = .store (.ofText path) := if_neg h
    rw [hp]
    rfl

/-- A connection is written as it stands, whatever its members are. -/
theorem Connection.spells : Spells n any Connection.ofJson? (toJson Link.path) := by
  intro j c hj h
  cases j with
  | obj members =>
    obtain ⟨hordered, -⟩ := inOrder_obj.mp hj.inOrder
    rw [ofJson?_obj] at h
    simp only [bind_eq_some, pure_eq_some] at h
    obtain ⟨type, ht, element, he, rfl⟩ := h
    have hw : (element.map ConnectionStore.ofPath).map (ConnectionStore.toJson Link.path) =
        element.map .str := by
      rw [Option.map_map]
      exact Option.map_congr fun s _ => ConnectionStore.toJson_ofPath s
    have hspec := isSpecification_sortMembers members
    have hspecific : sortMembers (specific members) = specific members :=
      (Ordered.filter hordered).sortMembers_eq
    obtain ⟨t, ht', ht⟩ := Option.bind_eq_some_iff.mp ht
    obtain rfl := eq_str_of_text? ht
    refine ⟨iff_of_true ?_ rfl, rfl, rfl⟩
    rw [toJson, hw, tagged_eq, Record.toJson, object,
      gist_obj_eq_iff (ordered_sortMembers _) hordered]
    intro k
    rw [hspecific] at hspec ⊢
    by_cases hk : k = "_type"
    · subst hk
      simp [hspec.lookup, hspec.ordered, ht']
    · by_cases hk' : k = "element"
      · subst hk'
        simp [hspec.lookup, hspec.ordered, said_of_text he]
      · have hlookup : (specific members).lookup k = members.lookup k := by
          rw [specific, lookup_filter_key fun k => k != "_type" && k != "element", if_pos]
          simp [hk, hk']
        simp [hk, hk', hspecific, hlookup]
  | _ => cases h

theorem eq_of_exactly {o : Option Json} {s : String}
    (h : Form.needed (exactly s) (shown o) = true) : o = some (.str s) := by
  cases o with
  | none => cases h
  | some j =>
    cases hc : j.canonical.isAbsent with
    | true =>
      rw [shown_absent hc] at h
      cases h
    | false =>
      rw [shown_some hc] at h
      cases j with
      | str t => exact congrArg (some ∘ Json.str) (beq_iff_eq.mp h)
      | _ => cases h

/-- A pointer to an element is written as it stands. -/
theorem elementPointer_tells {F : Family} {j : Json} {r : Record} {tag name : String}
    {target : Reference F} (hj : j.IsTidy n) (htag : (j.member? "_type").bind text? = some tag)
    (hr : Record.ofJson? ["_type", name] j = some r) (hname : name ≠ "_type")
    (ht : (r.lookup name).bind Reference.ofJson? = some target) :
    (record [("_type", Form.needed (exactly tag)), (name, Form.needed text)]).Tells j
        (tagged tag (field name (target.toJson Link.path))) ∧
      record [("_type", Form.needed (exactly tag)), (name, Form.needed text)] j.canonical = true := by
  have htells := reference_spells.needed (tidies hj.succ hr) ht
  cases j with
  | obj members =>
    obtain ⟨hordered, -⟩ := inOrder_obj.mp hj.inOrder
    obtain ⟨t, ht', htag⟩ := Option.bind_eq_some_iff.mp htag
    obtain rfl := eq_str_of_text? htag
    have hw := hr
    rw [Record.ofJson?] at hr
    split at hr
    · obtain rfl := Option.some.inj hr
      obtain ⟨v, hv, ht⟩ := Option.bind_eq_some_iff.mp ht
      obtain ⟨s, hs, -⟩ := Option.map_eq_some_iff.mp ht
      obtain rfl := eq_str_of_text? hs
      have hat : TellsAt (Form.needed (exactly tag)) (members.lookup "_type") (some (.str tag)) :=
        tellsAt_exactly fun v hv => ⟨tag, Option.some.inj (hv.symm.trans ht')⟩
      rw [tagged_eq]
      refine ⟨record_tells hj.inOrder hw rfl (by simp) ?_, ?_⟩
      · simpa [hname, hname.symm] using ⟨hat, htells⟩
      · change members.lookup "_type" = _ at ht'
        rw [canonical, record]
        simp only [List.all_cons, List.all_nil, lookup_canonicalMembers hordered, hv, ht']
        rw [shown_some rfl, shown_some rfl]
        simp [canonical, Form.needed, exactly, Form.text]
    · cases hr
  | _ => cases htag

theorem ConnectionValue.spells : Spells n any ConnectionValue.ofJson? (toJson Link.path) := by
  intro j v hj h
  rw [ofJson?] at h
  split at h
  · next htag =>
    simp only [bind_eq_some, pure_eq_some, required_eq] at h
    obtain ⟨r, hr, target, ht, rfl⟩ := h
    obtain ⟨htells, hspelled⟩ := elementPointer_tells hj htag hr (by decide) ht
    exact ⟨iff_of_true (htells.exact.mpr hspelled) rfl, htells.stated, htells.there⟩
  · obtain ⟨c, hc, rfl⟩ := Option.map_eq_some_iff.mp h
    exact Connection.spells hj hc

theorem IdentifiedConnection.spells :
    Spells n identifiedConnection IdentifiedConnection.ofJson? (toJson Link.path) := by
  intro j c hj h
  simp only [ofJson?, bind_eq_some, pure_eq_some, required_eq, text_eq] at h
  obtain ⟨r, hr, id, hi, connection, hc, rfl⟩ := h
  have ht := tidies hj.succ hr
  have hi := text_spells.needed ht hi
  have hc := ConnectionValue.spells.needed ht hc
  apply record_tells hj.inOrder hr rfl (by simp)
  simpa using ⟨hi, hc⟩

theorem pointer_spells (type : String) :
    Spells n (pointer type) pointerPath? fun path => pointerJson type (.str path) := by
  intro j path hj h
  simp only [pointerPath?, bind_eq_some, text_eq] at h
  obtain ⟨r, hr, t, ht', hp⟩ := h
  have hp := text_spells.needed (tidies hj.succ hr) hp
  have htype : TellsAt (Form.needed (exactly type)) (r.lookup "type") (some (.str type)) :=
    tellsAt_exactly fun v hv => by
      rw [hv] at ht'
      exact ⟨t, eq_str_of_text? ht'⟩
  apply record_tells hj.inOrder hr rfl (by simp)
  simpa using ⟨htype, hp⟩

theorem StoreConnections.spells :
    Spells n storeConnections StoreConnections.ofJson? (toJson Link.path) := by
  intro j g hj h
  simp only [ofJson?, bind_eq_some, pure_eq_some, required_eq, list_eq] at h
  obtain ⟨r, hr, path, hp, connections, hc, rfl⟩ := h
  have ht := tidies hj.succ hr
  have hp := (pointer_spells "STORE").needed ht hp
  have hc := IdentifiedConnection.spells.listed ht hc
  apply record_tells hj.inOrder hr rfl (by simp)
  simpa [ConnectionStore.toJson_ofPath] using ⟨hp, hc⟩

theorem Runtime.spells : Spells n runtimeDocument Runtime.ofJson? (toJson Link.path) := by
  intro j t hj h
  simp only [ofJson?, bind_eq_some, pure_eq_some, withDefault_eq, list_eq] at h
  obtain ⟨r, hr, tag, htag, mappings, hm, connections, hc, rfl⟩ := h
  have ht := tidies hj.succ hr
  have htag := tellsAt_constant (s := "engineRuntime") htag
  have hm := (pointer_spells "MAPPING").listed ht hm
  have hc := StoreConnections.spells.listed ht hc
  have hw : mappings.map ((fun m => pointerJson "MAPPING" (m.toJson Link.path)) ∘
      Reference.ofText (f := .mapping)) = mappings.map fun path => pointerJson "MAPPING" (.str path) :=
    rfl
  rw [toJson, tagged_eq]
  apply record_tells hj.inOrder hr rfl (by simp)
  simpa [hw] using ⟨htag, hm, hc⟩

theorem RuntimeValue.spells : Spells n runtimeValue RuntimeValue.ofJson? (toJson Link.path) := by
  intro j v hj h
  rw [ofJson?] at h
  split at h
  · next htag =>
    simp only [bind_eq_some, pure_eq_some, required_eq] at h
    obtain ⟨r, hr, target, ht, rfl⟩ := h
    obtain ⟨htells, hspelled⟩ := elementPointer_tells hj htag hr (by decide) ht
    refine ⟨iff_of_true (htells.exact.mpr hspelled) ?_, htells.stated, htells.there⟩
    rw [runtimeValue, hspelled, Bool.true_or]
  · next htag =>
    obtain ⟨t, ht, rfl⟩ := Option.map_eq_some_iff.mp h
    have htells := Runtime.spells hj ht
    refine ⟨htells.exact.trans ?_, htells.stated, htells.there⟩
    rw [runtimeValue, Bool.or_eq_true]
    refine (or_iff_right fun hp => htag ?_).symm
    cases j with
    | obj members =>
      obtain ⟨hordered, -⟩ := inOrder_obj.mp hj.inOrder
      simp only [canonical, record, List.all_cons, Bool.and_eq_true,
        lookup_canonicalMembers hordered] at hp
      change (members.lookup "_type").bind text? = _
      rw [eq_of_exactly hp.1]
      rfl
    | _ => cases hp

theorem Execution.spells : Spells n execution Execution.ofJson? (toJson Link.path) := by
  intro j e hj h
  simp only [ofJson?, bind_eq_some, pure_eq_some, withDefault_eq, required_eq,
    requiredValue_eq] at h
  obtain ⟨r, hr, tag, htag, query, hq, mapping, hm, runtime, hv, rfl⟩ := h
  have ht := tidies hj.succ hr
  have htag := tellsAt_constant (s := "pureSingleExecution") htag
  have hm := reference_spells.needed ht hm
  have hv := RuntimeValue.spells.needed ht hv
  rw [toJson, tagged_eq]
  apply record_tells hj.inOrder hr rfl (by simp)
  simpa [hq] using ⟨htag, tellsAt_free rfl, hm, hv⟩

theorem Execution.solid : Solid Execution.ofJson? := by
  intro j e h
  simp only [ofJson?, bind_eq_some, pure_eq_some, required_eq] at h
  obtain ⟨r, hr, -, -, -, -, mapping, hm, -⟩ := h
  obtain ⟨v, hv, hm⟩ := Option.bind_eq_some_iff.mp hm
  obtain ⟨s, hs, -⟩ := Option.map_eq_some_iff.mp hm
  exact isAbsent_of_found hr hv (eq_str_of_text? hs ▸ rfl)

theorem Service.tells {j : Json} {s : Service} (hj : j.IsTidy n) (h : Service.ofJson? j = some s) :
    (record Form.service).Tells j (s.toJson Link.path) := by
  simp only [ofJson?, bind_eq_some, pure_eq_some, withDefault_eq, texts_eq, flag_eq,
    optional_eq] at h
  obtain ⟨r, hr, pattern, hp, documentation, hd, owners, ho, auto, hu, execution, he, annotations,
    ha, rfl⟩ := h
  have ht := tidies hj.succ hr
  have hp := text_spells.withDefault ht hp rfl
  have hd := text_spells.withDefault ht hd rfl
  have ho := text_spells.listed ht ho
  have hu := flag_spells.withDefault ht hu rfl
  have he := Execution.spells.optional ht Execution.solid he
  have ha := Annotations.tells ht ha
  apply record_tells hj.inOrder hr rfl (by simp)
  simpa [Form.service, Form.annotations] using ⟨hp, hd, ho, hu, he, ha⟩

theorem Connection.tells {j : Json} {c : Connection} (hj : j.IsTidy n)
    (h : Connection.ofElementJson? j = some c) :
    (record Form.connection).Tells j (c.toElementJson Link.path) := by
  simp only [ofElementJson?, bind_eq_some, required_eq] at h
  obtain ⟨r, hr, hc⟩ := h
  have hc := Connection.spells.needed (tidies hj.succ hr) hc
  apply record_tells hj.inOrder hr rfl (by simp)
  simpa [Form.connection] using hc

theorem Runtime.tells {j : Json} {t : Runtime} (hj : j.IsTidy n)
    (h : Runtime.ofElementJson? j = some t) :
    (record Form.runtime).Tells j (t.toElementJson Link.path) := by
  simp only [ofElementJson?, bind_eq_some, required_eq] at h
  obtain ⟨r, hr, hx⟩ := h
  have hx := Runtime.spells.needed (tidies hj.succ hr) hx
  apply record_tells hj.inOrder hr rfl (by simp)
  simpa [Form.runtime] using hx

theorem TextElement.tells {j : Json} {t : TextElement} (hj : j.IsTidy n)
    (h : TextElement.ofJson? j = some t) : (record Form.textElement).Tells j t.toJson := by
  simp only [ofJson?, bind_eq_some, pure_eq_some, withDefault_eq] at h
  obtain ⟨r, hr, format, hf, content, hc, rfl⟩ := h
  have ht := tidies hj.succ hr
  have hf := text_spells.withDefault ht hf rfl
  have hc := text_spells.withDefault ht hc rfl
  apply record_tells hj.inOrder hr rfl (by simp)
  simpa [Form.textElement] using ⟨hf, hc⟩

theorem GeneralizationView.spells :
    Spells n generalizationView GeneralizationView.ofJson? toJson := by
  intro j l hj h
  simp only [ofJson?, bind_eq_some, pure_eq_some, text_eq] at h
  obtain ⟨r, hr, source, hs, target, ht', rfl⟩ := h
  have ht := tidies hj.succ hr
  have hs := text_spells.needed ht hs
  have ht' := text_spells.needed ht ht'
  apply record_tells hj.inOrder hr rfl (by simp)
  simpa using ⟨hs, ht'⟩

theorem double_spells : Spells n double double? fun d => .num (.double d) := by
  intro j d _ h
  cases j with
  | num m =>
    cases m with
    | int i => exact ⟨iff_of_false (fun hg => by cases hg) Bool.false_ne_true, rfl, rfl⟩
    | double e =>
      obtain rfl := Option.some.inj h
      exact ⟨iff_of_true rfl rfl, rfl, rfl⟩
  | _ => cases h

namespace ClassView

theorem pair_spells {first second : String} (hne : first ≠ second) :
    Spells n (pair first second) (pair? first second) fun p => pairJson first second p.1 p.2 := by
  intro j p hj h
  simp only [pair?, bind_eq_some, pure_eq_some, required_eq] at h
  obtain ⟨r, hr, a, ha, b, hb, rfl⟩ := h
  have ht := tidies hj.succ hr
  have ha := double_spells.needed ht ha
  have hb := double_spells.needed ht hb
  apply record_tells hj.inOrder hr rfl (by simp)
  simpa [hne, hne.symm] using ⟨ha, hb⟩

theorem spells : Spells n classView ofJson? (toJson Link.path) := by
  intro j v hj h
  simp only [ofJson?, bind_eq_some, pure_eq_some, required_eq, text_eq] at h
  obtain ⟨r, hr, id, hi, shown, hs, ⟨x, y⟩, hp, ⟨width, height⟩, hw, rfl⟩ := h
  have ht := tidies hj.succ hr
  have hi := text_spells.needed ht hi
  have hs := reference_spells.needed ht hs
  have hp := (pair_spells (by decide)).needed ht hp
  have hw := (pair_spells (by decide)).needed ht hw
  apply record_tells hj.inOrder hr rfl (by simp)
  simpa using ⟨hi, hs, hp, hw⟩

end ClassView

theorem Diagram.tells {j : Json} {d : Diagram} (hj : j.IsTidy n) (h : Diagram.ofJson? j = some d) :
    (record Form.diagram).Tells j (d.toJson Link.path) := by
  simp only [ofJson?, bind_eq_some, pure_eq_some, list_eq] at h
  obtain ⟨r, hr, views, hv, lines, hl, rfl⟩ := h
  have ht := tidies hj.succ hr
  have hv := ClassView.spells.listed ht hv
  have hl := GeneralizationView.spells.listed ht hl
  apply record_tells hj.inOrder hr rfl (by simp)
  simpa [Form.diagram] using ⟨hv, hl⟩

/-- A name among several is written as a text, which it need not have been. -/
theorem choice_spells {α : Type} (names : List String) (loose : Bool) {read : Json → Option α}
    {write : α → String}
    (h : ∀ j a, read j = some a → choice? names loose j = some (write a)) :
    Spells n text read fun a => .str (write a) := by
  intro j a _ ha
  have hc := h j a ha
  cases j with
  | str s =>
    rw [choice?] at hc
    split at hc
    · rw [Option.some.inj hc]
      exact ⟨iff_of_true rfl rfl, rfl, rfl⟩
    · cases hc
  | obj members => exact ⟨iff_of_false (fun hg => by cases hg) Bool.false_ne_true, rfl, rfl⟩
  | _ => cases hc

theorem HttpMethod.spells : Spells n Form.text HttpMethod.ofJson? fun m => .str m.text := by
  apply choice_spells ["GET", "POST"] true
  intro j m h
  rw [ofJson?] at h
  split at h
  · next hc => cases h; exact hc
  · next hc => cases h; exact hc
  · cases h

theorem ParameterLocation.spells :
    Spells n Form.text ParameterLocation.ofJson? fun l => .str l.text := by
  apply choice_spells ["QUERY", "PATH", "HEADER"] true
  intro j l h
  rw [ofJson?] at h
  split at h
  · next hc => cases h; exact hc
  · next hc => cases h; exact hc
  · next hc => cases h; exact hc
  · cases h

theorem SchemaFormat.spells : Spells n Form.text SchemaFormat.ofJson? fun f => .str f.text := by
  apply choice_spells ["JSON", "XML"] false
  intro j f h
  rw [ofJson?] at h
  split at h
  · next hc => cases h; exact hc
  · next hc => cases h; exact hc
  · cases h

theorem ServiceParameter.spells : Spells n serviceParameter ServiceParameter.ofJson? toJson := by
  intro j p hj h
  simp only [ofJson?, bind_eq_some, pure_eq_some, required_eq, text_eq, flag_eq] at h
  obtain ⟨r, hr, name, hn, location, hl, required, hx, rfl⟩ := h
  have ht := tidies hj.succ hr
  have hn := text_spells.needed ht hn
  have hl := ParameterLocation.spells.needed ht hl
  have hx := flag_spells.withDefault ht hx rfl
  apply record_tells hj.inOrder hr rfl (by simp)
  simpa using ⟨hn, hl, hx⟩

namespace ServiceNode

theorem read_spells (fuel : Nat) (nested : Bool) (n : Nat) :
    Spells n (serviceNode n) (read fuel nested) toJson := by
  induction fuel generalizing nested n with
  | zero =>
    intro j o _ h
    cases h
  | succ fuel ih =>
    intro j o hj h
    cases n with
    | zero => exact absurd hj.depth_lt (Nat.not_lt_zero _)
    | succ n =>
      obtain ⟨⟨tag, d⟩, htag, h⟩ := bind_eq_some.mp h
      simp only at h
      have hd := hj.untagged htag
      split at h
      · obtain ⟨s, hs, rfl⟩ := Option.map_eq_some_iff.mp h
        simp only [HttpService.ofJson?, bind_eq_some, pure_eq_some, required_eq, text_eq,
          list_eq] at hs
        obtain ⟨r, hr, id, hi, path, hp, method, hm, parameters, hps, rfl⟩ := hs
        have ht := tidies hd hr
        have hi := text_spells.needed ht hi
        have hp := text_spells.needed ht hp
        have hm := HttpMethod.spells.needed ht hm
        have hps := ServiceParameter.spells.listed ht hps
        rw [toJson, HttpService.toJson]
        apply variant_tells hj.inOrder htag rfl hr rfl (by decide) (by simp)
        simpa using ⟨hi, hp, hm, hps⟩
      · simp only [bind_eq_some, pure_eq_some, text_eq, list_eq] at h
        obtain ⟨r, hr, id, hi, path, hp, elements, he, rfl⟩ := h
        have ht := tidies hd hr
        have hi := text_spells.needed ht hi
        have hp := text_spells.needed ht hp
        have he := (ih true n).listed ht he
        rw [toJson, toJsons_eq]
        apply variant_tells hj.inOrder htag rfl hr rfl (by decide) (by simp)
        simpa using ⟨hi, hp, he⟩
      · cases h

theorem spells : Spells n (serviceNode n) ofJson? toJson :=
  fun j _ hj h => read_spells (j.depth + 1) false n hj h

end ServiceNode

theorem ServiceStore.tells {j : Json} {s : ServiceStore} (hj : j.IsTidy n)
    (h : ServiceStore.ofJson? j = some s) :
    (record (Form.serviceStore n)).Tells j (s.toJson Link.path) := by
  simp only [ofJson?, bind_eq_some, pure_eq_some, optText_eq, list_eq] at h
  obtain ⟨r, hr, includes, hi, description, hd, elements, he, rfl⟩ := h
  have ht := tidies hj.succ hr
  have hi := reference_spells.listed ht hi
  have hd := text_spells.optional ht text_solid hd
  have he := ServiceNode.spells.listed ht he
  rw [toJson, ServiceNode.toJsons_eq]
  apply record_tells hj.inOrder hr rfl (by simp)
  simpa [Form.serviceStore] using ⟨hi, hd, he⟩

theorem ServicePointer.spells : Spells n servicePointer ServicePointer.ofJson? (toJson Link.path) := by
  intro j p hj h
  simp only [ofJson?, bind_eq_some, required_eq, text_eq] at h
  obtain ⟨r, hr, h⟩ := h
  obtain ⟨i, hi, h⟩ := Option.bind_eq_some_iff.mp h
  simp only [bind_eq_some, pure_eq_some] at h
  obtain ⟨s, hs, store, hx, service, hv, rfl⟩ := h
  have hinner := tidies hj.succ hr _ _ hi
  have ht := tidies hinner.succ hs
  have hx := reference_spells.needed ht hx
  have hv := text_spells.needed ht hv
  have htells : (record [("serviceStore", Form.needed Form.text),
      ("service", Form.needed Form.text)]).Tells i (Record.toJson
        (field "serviceStore" (store.toJson Link.path) ++ field "service" (.str service))) := by
    apply record_tells hinner.inOrder hs rfl (by simp)
    simpa using ⟨hx, hv⟩
  have htells := htells.needed
  rw [← hi] at htells
  apply record_tells hj.inOrder hr rfl (by simp)
  simpa using htells

theorem FieldName.spells : Spells n fieldName FieldName.ofJson? (toJson Link.path) := by
  intro j f hj h
  simp only [ofJson?, bind_eq_some, pure_eq_some, required_eq, text_eq] at h
  obtain ⟨r, hr, owner, ho, property, hp, written, hw, rfl⟩ := h
  have ht := tidies hj.succ hr
  have ho := reference_spells.needed ht ho
  have hp := text_spells.needed ht hp
  have hw := text_spells.needed ht hw
  apply record_tells hj.inOrder hr rfl (by simp)
  simpa using ⟨ho, hp, hw⟩

theorem SerializerSchema.tells {j : Json} {s : SerializerSchema} (hj : j.IsTidy n)
    (h : SerializerSchema.ofJson? j = some s) :
    (record Form.serializerSchema).Tells j (s.toJson Link.path) := by
  simp only [ofJson?, bind_eq_some, pure_eq_some, required_eq, optional_eq, list_eq] at h
  obtain ⟨r, hr, format, hf, store, hs, root, hx, included, hi, fieldNames, hn, rfl⟩ := h
  have ht := tidies hj.succ hr
  have hf := SchemaFormat.spells.needed ht hf
  have hs := reference_spells.optional ht reference_solid hs
  have hx := reference_spells.needed ht hx
  have hi := reference_spells.listed ht hi
  have hn := FieldName.spells.listed ht hn
  apply record_tells hj.inOrder hr rfl (by simp)
  simpa [Form.serializerSchema] using ⟨hf, hs, hx, hi, hn⟩

end ModelGraph
