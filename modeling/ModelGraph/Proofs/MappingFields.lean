import ModelGraph.Proofs.IdentifiedRuntimes
import ModelGraph.Proofs.HashedBodies

namespace ModelGraph

open HashInput

namespace SourceValue

def IsBounded : SourceValue → Prop
  | .integer n => -(Nat.pow 2 63 : Nat) ≤ n ∧ n < (Nat.pow 2 63 : Nat)
  | _ => True

theorem delimits : Delimits (fun s t => s.IsBounded → t.IsBounded →
    s.toJson Link.path = t.toJson Link.path) SourceValue.hashInput := by
  intro s t x y h
  cases s with
  | text value =>
    cases t with
    | text value' =>
      simp only [hashInput, List.append_assoc] at h
      obtain ⟨hvalue, h⟩ := delimits_text h.tail
      exact ⟨fun _ _ => by rw [hvalue], h⟩
    | _ =>
      simp only [hashInput, List.append_assoc] at h
      exact absurd (delimits_text h).1 (by decide)
  | integer value =>
    cases t with
    | integer value' =>
      simp only [hashInput, List.append_assoc] at h
      obtain ⟨hvalue, h⟩ := delimits_word h.tail
      refine ⟨fun hs ht => ?_, h⟩
      have hsize : ((Nat.pow 2 63 : Nat) : Int) = 9223372036854775808 := rfl
      simp only [IsBounded, hsize] at hs ht
      unfold UInt64.size at hvalue
      rw [show value = value' by omega]
    | _ =>
      simp only [hashInput, List.append_assoc] at h
      exact absurd (delimits_text h).1 (by decide)
  | enumValue enumeration value =>
    cases t with
    | enumValue enumeration' value' =>
      simp only [hashInput, List.append_assoc] at h
      obtain ⟨henumeration, h⟩ := delimits_text h.tail
      obtain ⟨hvalue, h⟩ := delimits_text h
      refine ⟨fun _ _ => ?_, h⟩
      rw [toJson, toJson, Reference.toJson_path henumeration, hvalue]
    | _ =>
      simp only [hashInput, List.append_assoc] at h
      exact absurd (delimits_text h).1 (by decide)

theorem hashInput_ne_nil (s : SourceValue) : s.hashInput ≠ [] := by
  cases s <;> simp [hashInput, text_ne_nil]

end SourceValue

theorem forall₂_of_mem {α : Type} {P : α → Prop} {R : α → α → Prop} {as bs : List α}
    (h : List.Forall₂ (fun a b => P a → P b → R a b) as bs) (ha : ∀ a ∈ as, P a)
    (hb : ∀ b ∈ bs, P b) : List.Forall₂ R as bs := by
  induction h with
  | nil => exact .nil
  | cons hab _ ih =>
    rw [List.forall_mem_cons] at ha hb
    exact .cons (hab ha.1 hb.1) (ih ha.2 hb.2)

theorem EnumValueMapping.toJson_eq {v w : EnumValueMapping} (hv : ∀ s ∈ v.sources, s.IsBounded)
    (hw : ∀ s ∈ w.sources, s.IsBounded) (h : Agree v.hashInput w.hashInput) :
    v.toJson Link.path = w.toJson Link.path := by
  simp only [hashInput, List.append_assoc] at h
  obtain ⟨hname, h⟩ := delimits_text h.tail
  have hsources := SourceValue.delimits.flatMap_end SourceValue.hashInput_ne_nil h
  rw [toJson, toJson, hname, map_eq_of_forall₂ (forall₂_of_mem hsources hv hw)]

namespace EnumerationMapping

def inputs (m : EnumerationMapping) : List HashInput :=
  m.hashInput :: m.values.map EnumValueMapping.hashInput

def IsBounded (m : EnumerationMapping) : Prop := ∀ v ∈ m.values, ∀ s ∈ v.sources, s.IsBounded

theorem toJson_eq {m n : EnumerationMapping} (hm : m.IsBounded) (hn : n.IsBounded)
    (apart : Apart m.inputs n.inputs) (h : m.digest = n.digest) :
    m.toJson Link.path = n.toJson Link.path := by
  have hagree := apart.head h
  simp only [hashInput, List.append_assoc] at hagree
  obtain ⟨hid, hagree⟩ := delimits_optText hagree.tail
  obtain ⟨henumeration, hagree⟩ := delimits_text hagree
  have hvalues : m.values.map (·.toJson Link.path) = n.values.map (·.toJson Link.path) :=
    map_eq_of_forall₂ (apart.tail.forall₂_map (delimits_codes.rel hagree)
      fun v hv w hw => EnumValueMapping.toJson_eq (hm v hv) (hn w hw))
  rw [toJson, toJson, hid, Reference.toJson_path henumeration, hvalues]

end EnumerationMapping

namespace AggregationSpecification

/-- The functions of a specification in order, those of a value side by side. -/
def functions (s : AggregationSpecification) : List Json :=
  s.groupBy ++ s.values.flatMap fun v => [v.map, v.aggregate]

theorem hashInput_eq (s : AggregationSpecification) :
    s.hashInput = .tag .aggregationSpecification ++ (.flag s.canAggregate ++
      s.functions.flatMap HashInput.json) := by
  simp only [hashInput, functions, List.flatMap_append, List.flatMap_assoc, List.flatMap_cons,
    List.flatMap_nil, List.append_nil, List.append_assoc]

/-- A specification is known by its digest up to where its functions are parted into those that
group and those of values. -/
theorem functions_sameText {s t : AggregationSpecification} (h : Agree s.hashInput t.hashInput) :
    s.canAggregate = t.canAggregate ∧ List.Forall₂ Json.SameText s.functions t.functions := by
  rw [hashInput_eq, hashInput_eq] at h
  obtain ⟨hflag, h⟩ := delimits_flag h.tail
  exact ⟨hflag, delimits_json.flatMap_end (fun j => text_ne_nil j.compact) h⟩

theorem values_sameText {vs ws : List AggregateValue}
    (h : List.Forall₂ Json.SameText (vs.flatMap fun v => [v.map, v.aggregate])
      (ws.flatMap fun v => [v.map, v.aggregate])) :
    List.Forall₂ (fun v w => v.map.SameText w.map ∧ v.aggregate.SameText w.aggregate) vs ws := by
  induction vs generalizing ws with
  | nil =>
    cases ws with
    | nil => exact .nil
    | cons w ws => cases h
  | cons v vs ih =>
    cases ws with
    | nil => cases h
    | cons w ws =>
      cases h with
      | cons hmap h =>
        cases h with
        | cons haggregate h => exact .cons ⟨hmap, haggregate⟩ (ih h)

theorem sameText {s t : AggregationSpecification} (hg : s.groupBy.length = t.groupBy.length)
    (h : Agree s.hashInput t.hashInput) : s.toJson.SameText t.toJson := by
  obtain ⟨hflag, hfunctions⟩ := functions_sameText h
  have hgroups := List.forall₂_take s.groupBy.length hfunctions
  have hvalues := List.forall₂_drop s.groupBy.length hfunctions
  simp only [functions] at hgroups hvalues
  rw [List.take_left, hg, List.take_left] at hgroups
  rw [List.drop_left, hg, List.drop_left] at hvalues
  have hv : List.Forall₂ Json.SameText
      (s.values.map fun v => Record.toJson (.field "mapFn" v.map ++ .field "aggregateFn" v.aggregate))
      (t.values.map fun v =>
        Record.toJson (.field "mapFn" v.map ++ .field "aggregateFn" v.aggregate)) := by
    rw [List.forall₂_map_left_iff, List.forall₂_map_right_iff]
    exact (values_sameText hvalues).imp
      fun _ _ hvw => .record (.append (.field _ hvw.1) (.field _ hvw.2))
  rw [toJson, toJson, hflag]
  exact .record (.append (.append (.refl _) (.listField _ hgroups)) (.listField _ hv))

end AggregationSpecification

namespace Aggregate

def SameDigests (nested nested' : Nat → Digest) (a b : Aggregate) : Prop :=
  (a.index : Int) % UInt64.size = (b.index : Int) % UInt64.size ∧
    a.specification.digest = b.specification.digest ∧ nested a.slot = nested' b.slot

variable {nested nested' : Nat → Digest} {as bs : List Aggregate} {ds es : List Digest}

theorem length_nestedInput (nested : Nat → Digest) (a : Aggregate) :
    (a.nestedInput nested).length = 88 := by
  rw [nestedInput, List.length_append, List.length_append, length_word, length_code, length_code]

theorem length_flatMap_nestedInput (nested : Nat → Digest) (as : List Aggregate) :
    (as.flatMap (nestedInput nested)).length = 88 * as.length := by
  induction as with
  | nil => rfl
  | cons a as ih =>
    rw [List.flatMap_cons, List.length_append, length_nestedInput, ih, List.length_cons]
    omega

theorem length_codes (ds : List Digest) : (codes ds).length = 40 * ds.length + 8 := by
  have hflat : (ds.flatMap code).length = 40 * ds.length := by
    induction ds with
    | nil => rfl
    | cons d ds ih =>
      rw [List.flatMap_cons, List.length_append, length_code, ih, List.length_cons]
      omega
  rw [codes, counted, List.length_append, length_word, hflat]
  omega

/-- Where digests follow the number of aggregates is too small by a multiple of five, for eleven
codes are as long as five aggregates. The third code then stands where the second aggregate has its
number and the length of a digest. -/
theorem not_agree_codes {b : Aggregate} (hds : ∀ d ∈ ds, ¬word 32 <+: d.bytes.toList)
    (h : Agree (codes ds) ((b :: bs).flatMap (nestedInput nested) ++ codes es)) : False := by
  have hlength := h.length_eq
  rw [List.length_append, length_codes, length_codes, length_flatMap_nestedInput,
    List.length_cons] at hlength
  match ds, bs with
  | d₁ :: d₂ :: d₃ :: ds, b₂ :: bs =>
    simp only [codes, counted, List.flatMap_cons, nestedInput, List.append_assoc] at h
    obtain ⟨-, h⟩ := h.of_append (by rw [length_word, length_word])
    obtain ⟨-, h⟩ := delimits_code h
    obtain ⟨-, h⟩ := delimits_code h
    rw [code, block, List.append_assoc] at h
    obtain ⟨-, h⟩ := h.of_append (by rw [length_word, length_word])
    have hthird := congrArg (List.take 8) h.2
    rw [code, block, List.append_assoc, List.take_left' (length_word _),
      Vector.length_toList] at hthird
    have hprefix := List.take_prefix 8 d₃.bytes.toList
    have hle : 8 ≤ d₃.bytes.toList.length := by rw [Vector.length_toList]; decide
    rw [List.take_append_of_le_length hle] at hthird
    rw [hthird] at hprefix
    exact hds d₃ (by simp) hprefix
  | [], _ => simp only [List.length_nil] at hlength; omega
  | [_], _ => simp only [List.length_cons, List.length_nil] at hlength; omega
  | [_, _], _ => simp only [List.length_cons, List.length_nil] at hlength; omega
  | _ :: _ :: _ :: _, [] => simp only [List.length_cons, List.length_nil] at hlength; omega

theorem aggregates_codes (hds : ∀ d ∈ ds, ¬word 32 <+: d.bytes.toList)
    (hes : ∀ e ∈ es, ¬word 32 <+: e.bytes.toList)
    (h : Agree (as.flatMap (nestedInput nested) ++ codes ds)
      (bs.flatMap (nestedInput nested') ++ codes es)) :
    List.Forall₂ (SameDigests nested nested') as bs ∧ ds = es := by
  induction as generalizing bs with
  | nil =>
    cases bs with
    | nil => exact ⟨.nil, delimits_codes.rel h⟩
    | cons b bs => exact (not_agree_codes hds h).elim
  | cons a as ih =>
    cases bs with
    | nil => exact (not_agree_codes hes h.symm).elim
    | cons b bs =>
      simp only [List.flatMap_cons, nestedInput, List.append_assoc] at h
      obtain ⟨hindex, h⟩ := delimits_word h
      obtain ⟨hspecification, h⟩ := delimits_code h
      obtain ⟨hnested, h⟩ := delimits_code h
      obtain ⟨hrest, hcodes⟩ := ih h
      exact ⟨.cons ⟨hindex, hspecification, hnested⟩ hrest, hcodes⟩

end Aggregate
end ModelGraph
