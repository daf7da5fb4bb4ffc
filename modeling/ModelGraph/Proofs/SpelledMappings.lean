import ModelGraph.Proofs.Conformance
import ModelGraph.Proofs.MappingDocuments

namespace ModelGraph

open Record Json Form

variable {n : Nat}

theorem TablePointer.spells : Spells n tablePointer TablePointer.ofJson? (toJson Link.path) := by
  intro j t hj h
  simp only [ofJson?, bind_eq_some, pure_eq_some, required_eq, text_eq, withDefault_eq] at h
  obtain ⟨r, hr, tag, htag, table, htable, schema, hs, database, hd, rfl⟩ := h
  have ht := tidies hj.succ hr
  have htag := tellsAt_constant (s := "Table") htag
  have htable := text_spells.needed ht htable
  have hs := text_spells.needed ht hs
  have hd := reference_spells.needed ht hd
  rw [toJson, tagged_eq]
  apply record_tells hj.inOrder hr rfl (by simp)
  simpa using ⟨htag, htable, hs, hd⟩

theorem TablePointer.solid : Solid TablePointer.ofJson? := by
  intro j t h
  simp only [ofJson?, bind_eq_some, pure_eq_some, text_eq] at h
  obtain ⟨r, hr, -, -, table, htable, -⟩ := h
  obtain ⟨v, hv, htable⟩ := Option.bind_eq_some_iff.mp htable
  exact isAbsent_of_found hr hv (eq_str_of_text? htable ▸ rfl)

theorem JoinPointer.spells : Spells n joinPointer JoinPointer.ofJson? (toJson Link.path) := by
  intro j p hj h
  simp only [ofJson?, bind_eq_some, pure_eq_some, required_eq, text_eq, optText_eq] at h
  obtain ⟨r, hr, database, hd, name, hn, joinType, ht', rfl⟩ := h
  have ht := tidies hj.succ hr
  have hd := reference_spells.needed ht hd
  have hn := text_spells.needed ht hn
  have ht' := text_spells.optional ht text_solid ht'
  apply record_tells hj.inOrder hr rfl (by simp)
  simpa using ⟨hd, hn, ht'⟩

namespace RelationalOperation

theorem solid_read (fuel : Nat) (nested : Bool) : Solid (read fuel nested) := by
  intro j o h
  cases fuel with
  | zero => cases h
  | succ fuel =>
    obtain ⟨⟨tag, d⟩, ht, -⟩ := bind_eq_some.mp h
    exact isAbsent_of_tagged ht

theorem read_spells (fuel : Nat) (nested : Bool) (n : Nat) :
    Spells n (operation n) (read fuel nested) (toJson Link.path) := by
  induction fuel generalizing nested n with
  | zero =>
    intro j o _ h
    cases h
  | succ fuel ih =>
    intro j o hj h
    -- The form nests as deep as the document, whatever is left of the fuel of the reader.
    cases n with
    | zero => exact absurd hj.depth_lt (Nat.not_lt_zero _)
    | succ n =>
      obtain ⟨⟨tag, d⟩, htag, h⟩ := bind_eq_some.mp h
      simp only at h
      have hd := hj.untagged htag
      split at h
      · simp only [bind_eq_some, pure_eq_some, required_eq, text_eq] at h
        obtain ⟨r, hr, table, ht', tableAlias, ha, name, hn, rfl⟩ := h
        have ht := tidies hd hr
        have ht' := TablePointer.spells.needed ht ht'
        have ha := text_spells.needed ht ha
        have hn := text_spells.needed ht hn
        rw [toJson]
        apply variant_tells hj.inOrder htag rfl hr rfl (by decide) (by simp)
        simpa using ⟨ht', ha, hn⟩
      · simp only [bind_eq_some, pure_eq_some, text_eq, list_eq] at h
        obtain ⟨r, hr, name, hn, parameters, hp, rfl⟩ := h
        have ht := tidies hd hr
        have hn := text_spells.needed ht hn
        have hp := (ih true n).listed ht hp
        rw [toJson, toJsons_eq]
        apply variant_tells hj.inOrder htag rfl hr rfl (by decide) (by simp)
        simpa using ⟨hn, hp⟩
      · simp only [bind_eq_some, pure_eq_some, requiredValue_eq] at h
        obtain ⟨r, hr, value, hv, rfl⟩ := h
        rw [toJson]
        apply variant_tells hj.inOrder htag rfl hr rfl (by decide) (by simp)
        simpa [hv] using tellsAt_free rfl
      · simp only [bind_eq_some, pure_eq_some, list_eq, optional_eq] at h
        obtain ⟨r, hr, joins, hjoins, element, he, rfl⟩ := h
        have ht := tidies hd hr
        have hjoins := JoinPointer.spells.listed ht hjoins
        have he := (ih true n).optional ht (solid_read fuel true) he
        cases element with
        | none =>
          rw [toJson]
          apply variant_tells hj.inOrder htag rfl hr rfl (by decide) (by simp)
          simpa using ⟨hjoins, he⟩
        | some element =>
          rw [toJson]
          apply variant_tells hj.inOrder htag rfl hr rfl (by decide) (by simp)
          simpa using ⟨hjoins, he⟩
      · cases h

theorem spells (nested : Bool) :
    Spells n (operation n) (ofJson? nested) (toJson Link.path) :=
  fun j _ hj h => read_spells (j.depth + 1) nested n hj h

end RelationalOperation

theorem Join.spells : Spells n (join n) Join.ofJson? (toJson Link.path) := by
  intro k o hj h
  simp only [ofJson?, bind_eq_some, pure_eq_some, required_eq, text_eq] at h
  obtain ⟨r, hr, name, hn, operation, ho, rfl⟩ := h
  have ht := tidies hj.succ hr
  have hn := text_spells.needed ht hn
  have ho := (RelationalOperation.spells false).needed ht ho
  apply record_tells hj.inOrder hr rfl (by simp)
  simpa using ⟨hn, ho⟩

theorem eq_of_nat64? {j : Json} {m : Nat} (h : j.nat64? = some m) :
    j = ofNat m ∧ m < Nat.pow 2 64 := by
  obtain ⟨i, hi, rfl⟩ := Option.map_eq_some_iff.mp h
  obtain ⟨rfl, hlow, hhigh⟩ := intBetween?_eq_some.mp hi
  refine ⟨by rw [ofNat, Int.toNat_of_nonneg hlow], ?_⟩
  have hpos : 0 < Nat.pow 2 64 := Nat.pow_pos (by decide)
  omega

theorem shown_of_nat64 {o : Option Json} {a : Option Nat} (h : readOptional nat64? o = some a) :
    shown o = a.map ofNat ∧ ∀ m, a = some m → m < Nat.pow 2 64 := by
  cases o with
  | none =>
    cases h
    exact ⟨rfl, fun m hm => by cases hm⟩
  | some j =>
    rw [readOptional] at h
    split at h
    · next hnull =>
      cases h
      cases j <;> first | exact ⟨rfl, fun m hm => by cases hm⟩ | cases hnull
    · obtain ⟨m, hm, rfl⟩ := Option.map_eq_some_iff.mp h
      obtain ⟨rfl, hlt⟩ := eq_of_nat64? hm
      exact ⟨rfl, fun k hk => Option.some.inj hk ▸ hlt⟩

/-- Numbers that are written as they stand, or not. -/
theorem tellsAt_numbers {o : Option Json} {a b : Option Nat} (h : shown o = a.map ofNat) :
    TellsAt (fun _ => decide (b = a)) o (b.map ofNat) := by
  have hsaid : ∀ {c : Option Nat} {o}, shown o = c.map ofNat → said o = c.map ofNat := by
    intro c o hc
    rw [said, hc]
    cases c <;> rfl
  have hb : shown (b.map ofNat) = b.map ofNat := by cases b <;> rfl
  rw [TellsAt, hsaid hb, hsaid h, decide_eq_true_eq]
  refine ⟨fun he => ?_, fun he => he ▸ rfl⟩
  exact Option.map_injective (fun m k hmk => Int.ofNat.inj (by simpa [ofNat] using hmk)) he

namespace ColumnType

theorem isStandard_iff {t : ColumnType} (hb : t.IsBounded) : t.IsStandard ↔
    '(' ∉ t.name.toList ∧ (if t.size.isSome then t.precision.isNone && t.scale.isNone
      else t.precision.isSome == t.scale.isSome) = true := by
  obtain ⟨name, size, precision, scale⟩ := t
  constructor
  · rintro ⟨hname, -, ⟨rfl, rfl⟩ | ⟨rfl, hp, hs⟩⟩
    · exact ⟨hname, by cases size <;> rfl⟩
    · exact ⟨hname, by simp_all⟩
  · rintro ⟨hname, hshape⟩
    refine ⟨hname, hb, ?_⟩
    cases size <;> cases precision <;> cases scale <;> simp_all

/-- A column type is written as it stands exactly if it is read from its own text. -/
theorem tells {j : Json} {t t' : ColumnType} (hj : j.InOrder) (h : ofJson? j = some t)
    (ht : ofText? t.text = some t') : columnType.Tells j t'.toJson := by
  simp only [ofJson?, bind_eq_some, pure_eq_some, text_eq, optional_eq] at h
  obtain ⟨r, hr, name, hn, size, hs, precision, hp, scale, hc, rfl⟩ := h
  obtain ⟨v, hv, hn⟩ := Option.bind_eq_some_iff.mp hn
  obtain rfl := eq_str_of_text? hn
  obtain ⟨hs, hsize⟩ := shown_of_nat64 hs
  obtain ⟨hp, hprecision⟩ := shown_of_nat64 hp
  obtain ⟨hc, hscale⟩ := shown_of_nat64 hc
  have hname : TellsAt (fun _ => decide (t'.name = name)) (r.lookup "_type")
      (some (.str t'.name)) := by
    rw [hv, TellsAt, said_some rfl, said_some rfl, decide_eq_true_eq, Option.some.injEq]
    exact ⟨fun he => Json.str.inj he, fun he => he ▸ rfl⟩
  -- The document is told by the type that is read of the text, and this by the form.
  have htells : (record [("_type", fun _ => decide (t'.name = name)),
      ("size", fun _ => decide (t'.size = size)),
      ("precision", fun _ => decide (t'.precision = precision)),
      ("scale", fun _ => decide (t'.scale = scale))]).Tells j t'.toJson := by
    apply record_tells hj hr rfl (by simp)
    simpa using ⟨hname, tellsAt_numbers hs, tellsAt_numbers hp, tellsAt_numbers hc⟩
  refine ⟨htells.exact.trans ?_, htells.stated, htells.there⟩
  have hsame : t' = ⟨name, size, precision, scale⟩ ↔
      (⟨name, size, precision, scale⟩ : ColumnType).IsStandard := by
    rw [← ofText?_text_iff, ht, Option.some.injEq]
  have hbounded : (⟨name, size, precision, scale⟩ : ColumnType).IsBounded := by
    rintro m (hm | hm | hm)
    exacts [hsize m hm, hprecision m hm, hscale m hm]
  cases j with
  | obj members =>
    obtain ⟨hordered, -⟩ := inOrder_obj.mp hj
    rw [Record.ofJson?] at hr
    split at hr
    · obtain rfl := Option.some.inj hr
      have hint : ∀ {a : Option Nat}, Form.optional int (a.map ofNat) = true := by
        intro a
        cases a <;> rfl
      have hplain : Form.needed plainName (shown (some (.str name))) = true ↔ '(' ∉ name.toList := by
        rw [shown_some rfl]
        simp [Form.needed, canonical, plainName]
      rw [isStandard_iff hbounded, ColumnType.mk.injEq] at hsame
      rw [canonical]
      simp only [columnType, record, arguments, member?, List.all_cons, List.all_nil,
        lookup_canonicalMembers hordered, hv, hs, hp, hc, hint, Bool.and_true, Bool.and_eq_true,
        decide_eq_true_eq, hplain, Option.isSome_map, Option.isNone_map]
      exact hsame
    · cases hr
  | arr items => exact iff_of_false Bool.false_ne_true Bool.false_ne_true
  | _ => cases hr

end ColumnType

theorem Column.spells : SpellsOk n column Column.ofJson? Column.toJson := by
  intro j c w hj h hw
  simp only [ofJson?, bind_eq_some, pure_eq_some, required_eq, text_eq] at h
  obtain ⟨r, hr, name, hn, t, hy, nullable, hl, rfl⟩ := h
  have ht := tidies hj.succ hr
  have hn := text_spells.needed ht hn
  have hl := flag_spells.needed ht hl
  obtain ⟨v, hv, hy⟩ := Option.bind_eq_some_iff.mp hy
  rw [toJson] at hw
  cases ht' : ColumnType.ofText? t.text with
  | none =>
    rw [ht'] at hw
    cases hw
  | some t' =>
    rw [ht'] at hw
    cases hw
    have hy := (ColumnType.tells (ht _ _ hv).inOrder hy ht').needed
    rw [← hv] at hy
    apply record_tells hj.inOrder hr rfl (by simp)
    simpa using ⟨hn, hy, hl⟩

theorem Table.spells : SpellsOk n table Table.ofJson? Table.toJson := by
  intro j t w hj h hw
  simp only [ofJson?, bind_eq_some, pure_eq_some, text_eq, texts_eq, list_eq] at h
  obtain ⟨r, hr, name, hn, columns, hc, key, hk, rfl⟩ := h
  obtain ⟨documents, hd, hw⟩ := bind_eq_ok.mp hw
  cases hw
  have ht := tidies hj.succ hr
  have hn := text_spells.needed ht hn
  have hc := Column.spells.listed ht hc hd
  have hk := text_spells.listed ht hk
  apply record_tells hj.inOrder hr rfl (by simp)
  simpa using ⟨hn, hc, hk⟩

theorem Schema.spells : SpellsOk n schema Schema.ofJson? Schema.toJson := by
  intro j s w hj h hw
  simp only [ofJson?, bind_eq_some, pure_eq_some, text_eq, list_eq] at h
  obtain ⟨r, hr, name, hn, tables, htables, rfl⟩ := h
  obtain ⟨documents, hd, hw⟩ := bind_eq_ok.mp hw
  cases hw
  have ht := tidies hj.succ hr
  have hn := text_spells.needed ht hn
  have htables := Table.spells.listed ht htables hd
  apply record_tells hj.inOrder hr rfl (by simp)
  simpa using ⟨hn, htables⟩

theorem Database.tells {j w : Json} {d : Database} (hj : j.IsTidy n)
    (h : Database.ofJson? j = some d) (hw : d.toJson Link.path = .ok w) :
    (record (Form.database n)).Tells j w := by
  simp only [ofJson?, bind_eq_some, pure_eq_some, list_eq] at h
  obtain ⟨r, hr, includes, hi, schemas, hs, joins, hjoins, rfl⟩ := h
  obtain ⟨documents, hd, hw⟩ := bind_eq_ok.mp hw
  cases hw
  have ht := tidies hj.succ hr
  have hi := reference_spells.listed ht hi
  have hs := Schema.spells.listed ht hs hd
  have hjoins := Join.spells.listed ht hjoins
  apply record_tells hj.inOrder hr rfl (by simp)
  simpa [Form.database] using ⟨hi, hs, hjoins⟩

theorem SourceValue.spells : Spells n sourceValue SourceValue.ofJson? (toJson Link.path) := by
  intro j v hj h
  obtain ⟨⟨tag, d⟩, htag, h⟩ := bind_eq_some.mp h
  simp only at h
  have hd := hj.succ.untagged htag
  split at h
  · simp only [bind_eq_some, pure_eq_some, text_eq] at h
    obtain ⟨r, hr, value, hv, rfl⟩ := h
    have hv := text_spells.needed (tidies hd hr) hv
    apply variant_tells hj.inOrder htag rfl hr rfl (by decide) (by simp)
    simpa using hv
  · simp only [bind_eq_some, pure_eq_some, required_eq] at h
    obtain ⟨r, hr, value, hv, rfl⟩ := h
    have hv := int64_spells.needed (tidies hd hr) hv
    apply variant_tells hj.inOrder htag rfl hr rfl (by decide) (by simp)
    simpa using hv
  · simp only [bind_eq_some, pure_eq_some, required_eq, text_eq] at h
    obtain ⟨r, hr, enumeration, he, value, hv, rfl⟩ := h
    have he := reference_spells.needed (tidies hd hr) he
    have hv := text_spells.needed (tidies hd hr) hv
    apply variant_tells hj.inOrder htag rfl hr rfl (by decide) (by simp)
    simpa using ⟨he, hv⟩
  · cases h

theorem EnumValueMapping.spells :
    Spells n enumValueMapping EnumValueMapping.ofJson? (toJson Link.path) := by
  intro j m hj h
  simp only [ofJson?, bind_eq_some, pure_eq_some, text_eq, list_eq] at h
  obtain ⟨r, hr, enumValue, hv, sources, hs, rfl⟩ := h
  have ht := tidies hj.succ hr
  have hv := text_spells.needed ht hv
  have hs := SourceValue.spells.listed ht hs
  apply record_tells hj.inOrder hr rfl (by simp)
  simpa using ⟨hv, hs⟩

theorem EnumerationMapping.spells :
    Spells n enumerationMapping EnumerationMapping.ofJson? (toJson Link.path) := by
  intro j m hj h
  simp only [ofJson?, bind_eq_some, pure_eq_some, required_eq, optText_eq, list_eq] at h
  obtain ⟨r, hr, id, hi, enumeration, he, values, hv, rfl⟩ := h
  have ht := tidies hj.succ hr
  have hi := text_spells.optional ht text_solid hi
  have he := reference_spells.needed ht he
  have hv := EnumValueMapping.spells.listed ht hv
  apply record_tells hj.inOrder hr rfl (by simp)
  simpa using ⟨hi, he, hv⟩

theorem MappingDocument.include_spells :
    Spells n mappingInclude MappingDocument.includeOfJson? (includeJson Link.path) := by
  intro j i hj h
  simp only [includeOfJson?, bind_eq_some, required_eq, withDefault_eq] at h
  obtain ⟨r, hr, tag, htag, hi⟩ := h
  have htag := tellsAt_constant (s := "mappingIncludeMapping") htag
  have hi := reference_spells.needed (tidies hj.succ hr) hi
  rw [includeJson, tagged_eq]
  apply record_tells hj.inOrder hr rfl (by simp)
  simpa using ⟨htag, hi⟩

namespace AggregationSpecification

theorem value_spells : Spells n aggregateValue valueOfJson? valueJson := by
  intro j v hj h
  simp only [valueOfJson?, bind_eq_some, pure_eq_some, requiredValue_eq] at h
  obtain ⟨r, hr, map, hm, aggregate, ha, rfl⟩ := h
  apply record_tells hj.inOrder hr rfl (by simp)
  simpa [hm, ha] using ⟨tellsAt_free rfl, tellsAt_free rfl⟩

theorem spells : Spells n aggregationSpecification ofJson? toJson := by
  intro j s hj h
  simp only [ofJson?, bind_eq_some, pure_eq_some, flag_eq, list_eq] at h
  obtain ⟨r, hr, canAggregate, hc, groupBy, hg, values, hv, rfl⟩ := h
  have ht := tidies hj.succ hr
  have hc := flag_spells.withDefault ht hc rfl
  have hg := tellsAt_values hg
  have hv := value_spells.listed ht hv
  rw [toJson_eq]
  apply record_tells hj.inOrder hr rfl (by simp)
  simpa using ⟨hc, hg, hv⟩

end AggregationSpecification

namespace PropertyMappingDocument

theorem pointer_spells :
    Spells n propertyPointer pointer? fun p => pointerJson Link.path p.1 p.2 := by
  intro j p hj h
  simp only [pointer?, bind_eq_some, pure_eq_some, required_eq, text_eq] at h
  obtain ⟨r, hr, owner, ho, property, hp, rfl⟩ := h
  have ht := tidies hj.succ hr
  have ho := reference_spells.needed ht ho
  have hp := text_spells.needed ht hp
  apply record_tells hj.inOrder hr rfl (by simp)
  simpa using ⟨ho, hp⟩

theorem read_spells (fuel n : Nat) : Spells n (propertyMapping n) (read fuel) (toJson Link.path) := by
  induction fuel generalizing n with
  | zero =>
    intro j d _ h
    cases h
  | succ fuel ih =>
    intro j d hj h
    cases n with
    | zero => exact absurd hj.depth_lt (Nat.not_lt_zero _)
    | succ n =>
      obtain ⟨⟨tag, document⟩, htag, h⟩ := bind_eq_some.mp h
      simp only at h
      have hd := hj.untagged htag
      split at h
      · simp only [bind_eq_some, pure_eq_some, required_eq, optText_eq, requiredValue_eq,
          optional_eq] at h
        obtain ⟨r, hr, ⟨owner, property⟩, hp, source, hs, target, ht', enum, he, transform, hv,
          explode, hx, rfl⟩ := h
        have ht := tidies hd hr
        have hp := pointer_spells.needed ht hp
        have hs := text_spells.optional ht text_solid hs
        have ht' := text_spells.optional ht text_solid ht'
        have he := text_spells.optional ht text_solid he
        have hx := flag_spells.optional ht flag_solid hx
        rw [toJson]
        apply variant_tells hj.inOrder htag rfl hr rfl (by decide) (by simp [plainHead, head])
        simpa [plainHead, head, hv] using ⟨hp, hs, ht', he, tellsAt_free rfl, hx⟩
      · simp only [bind_eq_some, pure_eq_some, required_eq, optText_eq] at h
        obtain ⟨r, hr, ⟨owner, property⟩, hp, source, hs, target, ht', enum, he, operation, ho,
          rfl⟩ := h
        have ht := tidies hd hr
        have hp := pointer_spells.needed ht hp
        have hs := text_spells.optional ht text_solid hs
        have ht' := text_spells.optional ht text_solid ht'
        have he := text_spells.optional ht text_solid he
        have ho := (RelationalOperation.spells true).needed ht ho
        rw [toJson]
        apply variant_tells hj.inOrder htag rfl hr rfl (by decide) (by simp [plainHead, head])
        simpa [plainHead, head] using ⟨hp, hs, ht', he, ho⟩
      · simp only [bind_eq_some, pure_eq_some, required_eq, optText_eq, text_eq, flag_eq,
          list_eq] at h
        obtain ⟨r, hr, ⟨owner, property⟩, hp, source, hs, id, hi, target, ht', root, hroot,
          properties, hps, rfl⟩ := h
        have ht := tidies hd hr
        have hp := pointer_spells.needed ht hp
        have hs := text_spells.optional ht text_solid hs
        have hi := text_spells.needed ht hi
        have ht' := reference_spells.needed ht ht'
        have hroot := flag_spells.withDefault ht hroot rfl
        have hps := (ih n).listed ht hps
        rw [toJson, toJsons_eq]
        apply variant_tells hj.inOrder htag rfl hr rfl (by decide) (by simp [head])
        simpa [head] using ⟨hp, hs, hi, ht', hroot, hps⟩
      · cases h

theorem spells : Spells n (propertyMapping n) ofJson? (toJson Link.path) :=
  fun j _ hj h => read_spells (j.depth + 1) n hj h

end PropertyMappingDocument

namespace ClassMappingHeader

theorem tells {r : Record} {h : ClassMappingHeader} (ht : Tidies n r)
    (hh : ofFound? (r.lookup "id") (r.lookup "class") (r.lookup "root") = some h) :
    TellsAt (Form.optional text) (r.lookup "id") (h.id.map .str) ∧
    TellsAt (Form.needed text) (r.lookup "class") (some (h.target.toJson Link.path)) ∧
    TellsAt (Form.needed flag) (r.lookup "root") (some (.bool h.root)) := by
  simp only [ofFound?, bind_eq_some, pure_eq_some] at hh
  obtain ⟨id, hi, target, hc, root, hr, rfl⟩ := hh
  exact ⟨text_spells.optional ht text_solid hi, reference_spells.needed ht hc,
    flag_spells.withDefault ht hr rfl⟩

end ClassMappingHeader

namespace ClassMappingDocument

theorem aggregate_spells {fuel : Nat} {f : Form}
    (h : Spells n f (read fuel true) (toJson Link.path)) :
    Spells n (aggregate f) (readAggregate fuel) (aggregateJson Link.path) := by
  intro j a hj ha
  simp only [readAggregate, bind_eq_some, pure_eq_some, required_eq] at ha
  obtain ⟨r, hr, index, hi, specification, hs, d, hd, rfl⟩ := ha
  have ht := tidies hj.succ hr
  have hi := nat32_spells.needed ht hi
  have hs := AggregationSpecification.spells.needed ht hs
  have hd := h.needed ht hd
  apply record_tells hj.inOrder hr rfl (by simp)
  simpa using ⟨hi, hs, hd⟩

theorem read_spells (fuel : Nat) (nested : Bool) (n : Nat) :
    Spells n (classMapping n) (read fuel nested) (toJson Link.path) := by
  induction fuel generalizing nested n with
  | zero =>
    intro j d _ h
    cases h
  | succ fuel ih =>
    intro j d hj h
    cases n with
    | zero => exact absurd hj.depth_lt (Nat.not_lt_zero _)
    | succ n =>
      obtain ⟨⟨tag, document⟩, htag, h⟩ := bind_eq_some.mp h
      simp only at h
      have hd := hj.untagged htag
      split at h
      · simp only [bind_eq_some, pure_eq_some, optional_eq, list_eq,
          ClassMappingHeader.ofRecord?_eq] at h
        obtain ⟨r, hr, header, hh, source, hs, filter, hf, properties, hp, rfl⟩ := h
        have ht := tidies hd hr
        have hh := ClassMappingHeader.tells ht hh
        have hs := reference_spells.optional ht reference_solid hs
        have hf := tellsAt_optional_value hf
        have hp := PropertyMappingDocument.spells.listed ht hp
        rw [toJson]
        apply variant_tells hj.inOrder htag rfl hr rfl (by decide) (by simp)
        simpa [classMappingHeader] using ⟨hh.1, hh.2.1, hh.2.2, hs, hf, hp⟩
      · simp only [bind_eq_some, pure_eq_some, flag_eq, optional_eq, list_eq,
          ClassMappingHeader.ofRecord?_eq] at h
        obtain ⟨r, hr, header, hh, distinct, hx, table, ht', key, hk, properties, hp, rfl⟩ := h
        have ht := tidies hd hr
        have hh := ClassMappingHeader.tells ht hh
        have hx := flag_spells.withDefault ht hx rfl
        have ht' := TablePointer.spells.optional ht TablePointer.solid ht'
        have hk := (RelationalOperation.spells true).listed ht hk
        have hp := PropertyMappingDocument.spells.listed ht hp
        rw [toJson]
        apply variant_tells hj.inOrder htag rfl hr rfl (by decide) (by simp)
        simpa [classMappingHeader] using ⟨hh.1, hh.2.1, hh.2.2, hx, ht', hk, hp⟩
      · change readAggregation fuel document = some d at h
        simp only [readAggregation, bind_eq_some, pure_eq_some, required_eq, list_eq,
          ClassMappingHeader.ofRecord?_eq] at h
        obtain ⟨r, hr, header, hh, main, hmain, aggregates, ha, properties, hp, rfl⟩ := h
        have ht := tidies hd hr
        have hh := ClassMappingHeader.tells ht hh
        have hmain := (ih true n).needed ht hmain
        have ha := (aggregate_spells (ih true n)).listed ht ha
        have hp := PropertyMappingDocument.spells.listed ht hp
        rw [toJson, aggregateJsons_eq]
        apply variant_tells hj.inOrder htag rfl hr rfl (by decide) (by simp)
        simpa [classMappingHeader] using ⟨hh.1, hh.2.1, hh.2.2, hmain, ha, hp⟩
      · simp only [bind_eq_some, pure_eq_some, text_eq, texts_eq,
          ClassMappingHeader.ofRecord?_eq] at h
        obtain ⟨r, hr, header, hh, name, hn, parameters, hp, rfl⟩ := h
        have ht := tidies hd hr
        have hh := ClassMappingHeader.tells ht hh
        have hn := text_spells.needed ht hn
        have hp := text_spells.listed ht hp
        rw [toJson]
        apply variant_tells hj.inOrder htag rfl hr rfl (by decide) (by simp)
        simpa [classMappingHeader] using ⟨hh.1, hh.2.1, hh.2.2, hn, hp⟩
      · cases h

theorem spells : Spells n (classMapping n) ofJson? (toJson Link.path) :=
  fun j _ hj h => read_spells (j.depth + 1) false n hj h

end ClassMappingDocument

end ModelGraph
