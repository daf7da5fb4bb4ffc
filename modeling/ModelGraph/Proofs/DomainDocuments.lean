import ModelGraph.Proofs.Rebinding
import ModelGraph.Proofs.Records

namespace ModelGraph

open Record Json

theorem text_rereads : Rereads text? Json.str := by
  intro j s h
  rfl

theorem int?_eq_some {n : Int} {j : Json} : j.int? = some n ↔ j = .num (.int n) := by
  cases j with
  | num k => cases k <;> simp [int?]
  | _ => simp [int?]

theorem intBetween?_eq_some {low high n : Int} {j : Json} :
    j.intBetween? low high = some n ↔ j = .num (.int n) ∧ low ≤ n ∧ n ≤ high := by
  rw [intBetween?, Option.filter_eq_some_iff, Bool.and_eq_true, decide_eq_true_eq,
    decide_eq_true_eq, int?_eq_some]

theorem nat32_rereads : Rereads nat32? Json.ofNat := by
  intro j n h
  obtain ⟨i, hi, rfl⟩ := Option.map_eq_some_iff.mp h
  obtain ⟨rfl, hr, -⟩ := intBetween?_eq_some.mp hi
  rw [ofNat, Int.toNat_of_nonneg hr]
  exact h

theorem Reference.respells {F : Family} (names : Naming) :
    Respells (Reference.ofJson? (f := F)) (Reference.toJson names) (repath names F) := by
  intro j r h
  obtain ⟨s, -, rfl⟩ := Option.map_eq_some_iff.mp h
  rfl

theorem Multiplicity.rereads : Rereads Multiplicity.ofJson? Multiplicity.toJson := by
  intro j m h
  simp only [Multiplicity.ofJson?, bind_eq_some, pure_eq_some, required_eq, optional_eq] at h
  obtain ⟨r, -, lower, hl, upper, hu, rfl⟩ := h
  have hl := nat32_rereads.of_lookup hl
  have hu := nat32_rereads.of_optional (fun _ => rfl) hu
  simp [toJson, ofJson?, ofJson?_toJson, hl, hu]

theorem Profile.rereads : Rereads Profile.ofJson? Profile.toJson := by
  intro j p h
  simp only [Profile.ofJson?, bind_eq_some, pure_eq_some, texts_eq] at h
  obtain ⟨r, -, stereotypes, hs, tags, ht, rfl⟩ := h
  have hs := text_rereads.of_list hs
  have ht := text_rereads.of_list ht
  simp [toJson, ofJson?, ofJson?_toJson, hs, ht]

theorem Stereotype.respells (names : Naming) :
    Respells Stereotype.ofJson? (Stereotype.toJson names) fun s => { s with profile := repath names _ s.profile } := by
  intro j s h
  simp only [Stereotype.ofJson?, bind_eq_some, pure_eq_some] at h
  obtain ⟨r, -, profile, hp, name, -, rfl⟩ := h
  have hp := (Reference.respells names).of_lookup hp
  simp [toJson, ofJson?, ofJson?_toJson, hp]

theorem TaggedValue.respells (names : Naming) :
    Respells TaggedValue.ofJson? (TaggedValue.toJson names) fun t => { t with profile := repath names _ t.profile } := by
  intro j t h
  simp only [TaggedValue.ofJson?, bind_eq_some, pure_eq_some, required_eq] at h
  obtain ⟨r, -, ⟨profile, tag⟩, hj, value, -, rfl⟩ := h
  obtain ⟨j, -, hj⟩ := Option.bind_eq_some_iff.mp hj
  simp only [bind_eq_some, pure_eq_some] at hj
  obtain ⟨s, -, p, hp, name, -, he⟩ := hj
  cases he
  have hp := (Reference.respells names).of_lookup hp
  simp [toJson, ofJson?, ofJson?_toJson, hp]

namespace Annotations

def ofFound? (stereotypes taggedValues : Option Json) : Option Annotations := do
  return {
    stereotypes := ← readDefault [] (list? Stereotype.ofJson?) stereotypes
    taggedValues := ← readDefault [] (list? TaggedValue.ofJson?) taggedValues }

@[simp]
theorem ofRecord?_eq {r : Record} :
    ofRecord? r = ofFound? (r.lookup "stereotypes") (r.lookup "taggedValues") := by
  simp [ofRecord?, ofFound?]

@[simp]
theorem lookup_written_record {names : Naming} {a : Annotations} {key : String} :
    (sortMembers (a.record names)).lookup key =
      (if key = "taggedValues" then listed (a.taggedValues.map (TaggedValue.toJson names))
        else none).or
        (if key = "stereotypes" then listed (a.stereotypes.map (Stereotype.toJson names))
        else none) := by
  simp [record]

@[simp]
theorem within_record {names : Naming} {a : Annotations} {p : String → Prop}
    (hs : p "stereotypes") (ht : p "taggedValues") : Within p (a.record names) := by
  simp [record, hs, ht]

theorem respells (names : Naming) {s t : Option Json} {a : Annotations}
    (h : ofFound? s t = some a) :
    ofFound? (listed (a.stereotypes.map (Stereotype.toJson names)))
      (listed (a.taggedValues.map (TaggedValue.toJson names))) =
        some (a.rebind (repath names)) := by
  simp only [ofFound?, bind_eq_some, pure_eq_some] at h
  obtain ⟨stereotypes, hs, taggedValues, ht, rfl⟩ := h
  have hs := (Stereotype.respells names).of_list hs
  have ht := (TaggedValue.respells names).of_list ht
  simp [ofFound?, rebind, hs, ht]

end Annotations

theorem Property.respells (names : Naming) :
    Respells Property.ofJson? (Property.toJson names) (Property.rebind (repath names)) := by
  intro j p h
  simp only [Property.ofJson?, bind_eq_some, pure_eq_some, Annotations.ofRecord?_eq] at h
  obtain ⟨r, -, name, -, type, ht, multiplicity, hm, annotations, ha, rfl⟩ := h
  have ht := (Reference.respells names).of_lookup ht
  have hm := Multiplicity.rereads.of_lookup hm
  have ha := Annotations.respells names ha
  simp [toJson, ofJson?, rebind, ofJson?_toJson, ht, hm, ha]

@[simp]
theorem stated_getD (j : Json) : (stated j).getD .null = j := by
  cases j <;> rfl

theorem DerivedProperty.respells (names : Naming) :
    Respells DerivedProperty.ofJson? (DerivedProperty.toJson names) (DerivedProperty.rebind (repath names)) := by
  intro j p h
  simp only [DerivedProperty.ofJson?, bind_eq_some, pure_eq_some, Annotations.ofRecord?_eq] at h
  obtain ⟨r, -, name, -, type, ht, multiplicity, hm, annotations, ha, rfl⟩ := h
  have ht := (Reference.respells names).of_lookup ht
  have hm := Multiplicity.rereads.of_lookup hm
  have ha := Annotations.respells names ha
  simp [toJson, ofJson?, rebind, ofJson?_toJson, ht, hm, ha]

theorem Constraint.rereads : Rereads Constraint.ofJson? Constraint.toJson := by
  intro j c h
  simp only [Constraint.ofJson?, bind_eq_some, pure_eq_some] at h
  obtain ⟨r, -, name, -, definition, -, rfl⟩ := h
  simp [toJson, ofJson?, ofJson?_toJson]

theorem Class.respells (names : Naming) :
    Respells Class.ofJson? (Class.toJson names) (Class.rebind (repath names)) := by
  intro j c h
  simp only [Class.ofJson?, bind_eq_some, pure_eq_some, list_eq, Annotations.ofRecord?_eq] at h
  obtain ⟨r, -, superTypes, hs, properties, hp, derived, hd, constraints, hc, annotations, ha, rfl⟩ :=
    h
  have hs := (Reference.respells names).of_list hs
  have hp := (Property.respells names).of_list hp
  have hd := (DerivedProperty.respells names).of_list hd
  have hc := Constraint.rereads.of_list hc
  have ha := Annotations.respells names ha
  simp [toJson, ofJson?, rebind, ofJson?_toJson, hs, hp, hd, hc, ha]

theorem Association.respells (names : Naming) :
    Respells Association.ofJson? (Association.toJson names) (Association.rebind (repath names)) := by
  intro j a h
  simp only [Association.ofJson?, bind_eq_some, pure_eq_some, list_eq,
    Annotations.ofRecord?_eq] at h
  obtain ⟨r, -, properties, hp, derived, hd, annotations, ha, rfl⟩ := h
  have hp := (Property.respells names).of_list hp
  have hd := (DerivedProperty.respells names).of_list hd
  have ha := Annotations.respells names ha
  simp [toJson, ofJson?, rebind, ofJson?_toJson, hp, hd, ha]

theorem EnumValue.respells (names : Naming) :
    Respells EnumValue.ofJson? (EnumValue.toJson names) (EnumValue.rebind (repath names)) := by
  intro j v h
  simp only [EnumValue.ofJson?, bind_eq_some, pure_eq_some, Annotations.ofRecord?_eq] at h
  obtain ⟨r, -, name, -, annotations, ha, rfl⟩ := h
  have ha := Annotations.respells names ha
  simp [toJson, ofJson?, rebind, ofJson?_toJson, ha]

theorem Enumeration.respells (names : Naming) :
    Respells Enumeration.ofJson? (Enumeration.toJson names) (Enumeration.rebind (repath names)) := by
  intro j e h
  simp only [Enumeration.ofJson?, bind_eq_some, pure_eq_some, list_eq,
    Annotations.ofRecord?_eq] at h
  obtain ⟨r, -, values, hv, annotations, ha, rfl⟩ := h
  have hv := (EnumValue.respells names).of_list hv
  have ha := Annotations.respells names ha
  simp [toJson, ofJson?, rebind, ofJson?_toJson, hv, ha]

theorem Parameter.respells (names : Naming) :
    Respells Parameter.ofJson? (Parameter.toJson names) (Parameter.rebind (repath names)) := by
  intro j p h
  simp only [Parameter.ofJson?, bind_eq_some, pure_eq_some, optText_eq] at h
  obtain ⟨r, -, kind, hk, name, -, type, ht, multiplicity, hm, rfl⟩ := h
  have hk := text_rereads.of_optional (fun _ => rfl) hk
  have ht := (Reference.respells names).of_lookup ht
  have hm := Multiplicity.rereads.of_lookup hm
  simp [toJson, ofJson?, rebind, ofJson?_toJson, hk, ht, hm]

theorem json_rereads : Rereads some (fun j : Json => j) := by
  intro j a h
  rfl

theorem Function.respells (names : Naming) :
    Respells Function.ofJson? (Function.toJson names) (Function.rebind (repath names)) := by
  intro j f h
  simp only [Function.ofJson?, bind_eq_some, pure_eq_some, list_eq, Annotations.ofRecord?_eq] at h
  obtain ⟨r, -, parameters, hp, type, ht, multiplicity, hm, body, hb, annotations, ha, rfl⟩ := h
  have hp := (Parameter.respells names).of_list hp
  have ht := (Reference.respells names).of_lookup ht
  have hm := Multiplicity.rereads.of_lookup hm
  have hb := json_rereads.of_list hb
  have ha := Annotations.respells names ha
  rw [List.map_id'] at hb
  simp [toJson, ofJson?, rebind, ofJson?_toJson, hp, ht, hm, hb, ha]

end ModelGraph
