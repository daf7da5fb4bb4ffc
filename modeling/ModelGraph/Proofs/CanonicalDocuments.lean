import ModelGraph.Proofs.CanonicalForms
import ModelGraph.Proofs.DomainDocuments

namespace ModelGraph

open Record Json

variable {n : Nat}

theorem text_keeps : Keeps text? :=
  keeps_of_canonical fun j _ h => by cases j <;> first | rfl | cases h

theorem bool_keeps : Keeps bool? :=
  keeps_of_canonical fun j _ h => by cases j <;> first | rfl | cases h

theorem isCanonical_of_intBetween? {low high n : Int} {j : Json}
    (h : j.intBetween? low high = some n) : j.IsCanonical := by
  rw [(intBetween?_eq_some.mp h).1]
  rfl

theorem nat32_keeps : Keeps nat32? :=
  keeps_of_canonical fun _ _ h =>
    have ⟨_, hn, _⟩ := Option.map_eq_some_iff.mp h
    isCanonical_of_intBetween? hn

theorem nat64_keeps : Keeps nat64? :=
  keeps_of_canonical fun _ _ h =>
    have ⟨_, hn, _⟩ := Option.map_eq_some_iff.mp h
    isCanonical_of_intBetween? hn

theorem double_keeps : Keeps double? :=
  keeps_of_canonical fun j _ h => by cases j <;> first | rfl | cases h

theorem Reference.keeps {F : Family} : Keeps (Reference.ofJson? (f := F)) := by
  apply keeps_of_canonical
  intro j r h
  obtain ⟨s, hs, -⟩ := Option.map_eq_some_iff.mp h
  cases j <;> first | rfl | cases hs

theorem Multiplicity.keeps : Keeps Multiplicity.ofJson? := by
  intro j m hj h
  simp only [Multiplicity.ofJson?, bind_eq_some, pure_eq_some, optional_eq] at h
  obtain ⟨r, hr, lower, hl, upper, hu, rfl⟩ := h
  obtain ⟨r', hr', t⟩ := trims hj (Nat.le_refl _) hr
  have hl := nat32_keeps.of_lookup (t "lowerBound") ⟨rfl, rfl⟩ hl
  have hu := nat32_keeps.of_optional (t "upperBound") rfl hu
  simp [ofJson?, hr', hl, hu]

theorem Profile.keeps : Keeps Profile.ofJson? := by
  intro j p hj h
  simp only [Profile.ofJson?, bind_eq_some, pure_eq_some, texts_eq] at h
  obtain ⟨r, hr, stereotypes, hs, tags, ht, rfl⟩ := h
  obtain ⟨r', hr', t⟩ := trims hj (Nat.le_refl _) hr
  have hs := text_keeps.of_list (t "stereotypes") hs
  have ht := text_keeps.of_list (t "tags") ht
  simp [ofJson?, hr', hs, ht]

theorem Stereotype.keeps : Keeps Stereotype.ofJson? := by
  intro j s hj h
  simp only [Stereotype.ofJson?, bind_eq_some, pure_eq_some] at h
  obtain ⟨r, hr, profile, hp, name, hn, rfl⟩ := h
  obtain ⟨r', hr', t⟩ := trims hj (Nat.le_refl _) hr
  have hp := Reference.keeps.of_lookup (t "profile") ⟨rfl, rfl⟩ hp
  have hn := text_keeps.of_lookup (t "value") ⟨rfl, rfl⟩ hn
  simp [ofJson?, hr', hp, hn]

theorem TaggedValue.keeps : Keeps TaggedValue.ofJson? := by
  have htag : Keeps (α := Reference .profile × String) fun j => do
      let r ← Record.ofJson? ["profile", "value"] j
      return (← r.required "profile" Reference.ofJson?, ← r.text "value") := by
    intro j s hj h
    simp only [bind_eq_some, pure_eq_some] at h
    obtain ⟨r, hr, profile, hp, name, hn, rfl⟩ := h
    obtain ⟨r', hr', t⟩ := trims hj (Nat.le_refl _) hr
    have hp := Reference.keeps.of_lookup (t "profile") ⟨rfl, rfl⟩ hp
    have hn := text_keeps.of_lookup (t "value") ⟨rfl, rfl⟩ hn
    simp [hr', hp, hn]
  intro j v hj h
  simp only [TaggedValue.ofJson?, bind_eq_some, pure_eq_some] at h
  obtain ⟨r, hr, tag, ht, value, hv, rfl⟩ := h
  obtain ⟨r', hr', t⟩ := trims hj (Nat.le_refl _) hr
  have ht := htag.of_lookup (t "tag") ⟨rfl, rfl⟩ ht
  have hv := text_keeps.of_lookup (t "value") ⟨rfl, rfl⟩ hv
  exact bind_eq_some.mpr ⟨r', hr', bind_eq_some.mpr ⟨tag, ht, bind_eq_some.mpr ⟨value, hv, rfl⟩⟩⟩

theorem Annotations.keeps {r r' : Record} (t : ∀ k, Trims n k (r.lookup k) (r'.lookup k))
    {a : Annotations} (h : ofFound? (r.lookup "stereotypes") (r.lookup "taggedValues") = some a) :
    ofFound? (r'.lookup "stereotypes") (r'.lookup "taggedValues") = some a := by
  simp only [ofFound?, bind_eq_some, pure_eq_some] at h
  obtain ⟨stereotypes, hs, taggedValues, hv, rfl⟩ := h
  have hs := Stereotype.keeps.of_list (t "stereotypes") hs
  have hv := TaggedValue.keeps.of_list (t "taggedValues") hv
  simp [ofFound?, hs, hv]

theorem Property.keeps : Keeps Property.ofJson? := by
  intro j p hj h
  simp only [Property.ofJson?, bind_eq_some, pure_eq_some, Annotations.ofRecord?_eq] at h
  obtain ⟨r, hr, name, hn, type, hy, multiplicity, hm, annotations, ha, rfl⟩ := h
  obtain ⟨r', hr', t⟩ := trims hj (Nat.le_refl _) hr
  have hn := text_keeps.of_lookup (t "name") ⟨rfl, rfl⟩ hn
  have hy := Reference.keeps.of_lookup (t "type") ⟨rfl, rfl⟩ hy
  have hm := Multiplicity.keeps.of_lookup (t "multiplicity") ⟨rfl, rfl⟩ hm
  have ha := Annotations.keeps t ha
  simp [ofJson?, hr', hn, hy, hm, ha]

structure DerivedProperty.IsCanonical (p : DerivedProperty) : Prop where
  parameters : p.parameters.IsStable
  body : p.body.IsStable

theorem DerivedProperty.agrees :
    Agrees n IsCanonical DerivedProperty.ofJson? DerivedProperty.ofJson? := by
  intro j p hj _ hp h
  simp only [DerivedProperty.ofJson?, bind_eq_some, pure_eq_some, Annotations.ofRecord?_eq] at h
  obtain ⟨r, hr, name, hn, type, hy, multiplicity, hm, annotations, ha, rfl⟩ := h
  obtain ⟨r', hr', t⟩ := trims hj (Nat.le_refl _) hr
  have hn := text_keeps.of_lookup (t "name") ⟨rfl, rfl⟩ hn
  have hy := Reference.keeps.of_lookup (t "returnType") ⟨rfl, rfl⟩ hy
  have hm := Multiplicity.keeps.of_lookup (t "returnMultiplicity") ⟨rfl, rfl⟩ hm
  have ha := Annotations.keeps t ha
  have hparameters := (t "parameters").getD hp.parameters
  have hbody := (t "body").getD hp.body
  simp [ofJson?, hr', hn, hy, hm, ha, hparameters, hbody]

def Constraint.IsCanonical (c : Constraint) : Prop := c.definition.IsStated

theorem Constraint.agrees : Agrees n IsCanonical Constraint.ofJson? Constraint.ofJson? := by
  intro j c hj _ hc h
  simp only [Constraint.ofJson?, bind_eq_some, pure_eq_some] at h
  obtain ⟨r, hr, name, hn, definition, hd, rfl⟩ := h
  obtain ⟨r', hr', t⟩ := trims hj (Nat.le_refl _) hr
  have hn := text_keeps.of_lookup (t "name") ⟨rfl, rfl⟩ hn
  have hd := (t "functionDefinition").eq_some hd hc
  simp [ofJson?, hr', hn, hd]

structure Class.IsCanonical (c : Class) : Prop where
  derived : ∀ p ∈ c.derivedProperties, p.IsCanonical
  constraints : ∀ k ∈ c.constraints, k.IsCanonical

theorem Class.agrees : Agrees n IsCanonical Class.ofJson? Class.ofJson? := by
  intro j c hj _ hc h
  simp only [Class.ofJson?, bind_eq_some, pure_eq_some, list_eq, Annotations.ofRecord?_eq] at h
  obtain ⟨r, hr, superTypes, hs, properties, hp, derived, hd, constraints, hk, annotations, ha,
    rfl⟩ := h
  obtain ⟨r', hr', t⟩ := trims hj (Nat.le_refl _) hr
  have hs := Reference.keeps.of_list (t "superTypes") hs
  have hp := Property.keeps.of_list (t "properties") hp
  have hd := DerivedProperty.agrees.of_list (t "qualifiedProperties") hc.derived hd
  have hk := Constraint.agrees.of_list (t "constraints") hc.constraints hk
  have ha := Annotations.keeps t ha
  simp [ofJson?, hr', hs, hp, hd, hk, ha]

def Association.IsCanonical (a : Association) : Prop :=
  ∀ p ∈ a.derivedProperties, p.IsCanonical

theorem Association.agrees : Agrees n IsCanonical Association.ofJson? Association.ofJson? := by
  intro j a hj _ ha h
  simp only [Association.ofJson?, bind_eq_some, pure_eq_some, list_eq, Annotations.ofRecord?_eq] at h
  obtain ⟨r, hr, properties, hp, derived, hd, annotations, hn, rfl⟩ := h
  obtain ⟨r', hr', t⟩ := trims hj (Nat.le_refl _) hr
  have hp := Property.keeps.of_list (t "properties") hp
  have hd := DerivedProperty.agrees.of_list (t "qualifiedProperties") ha hd
  have hn := Annotations.keeps t hn
  simp [ofJson?, hr', hp, hd, hn]

theorem EnumValue.keeps : Keeps EnumValue.ofJson? := by
  intro j v hj h
  simp only [EnumValue.ofJson?, bind_eq_some, pure_eq_some, Annotations.ofRecord?_eq] at h
  obtain ⟨r, hr, name, hn, annotations, ha, rfl⟩ := h
  obtain ⟨r', hr', t⟩ := trims hj (Nat.le_refl _) hr
  have hn := text_keeps.of_lookup (t "value") ⟨rfl, rfl⟩ hn
  have ha := Annotations.keeps t ha
  simp [ofJson?, hr', hn, ha]

theorem Enumeration.keeps : Keeps Enumeration.ofJson? := by
  intro j e hj h
  simp only [Enumeration.ofJson?, bind_eq_some, pure_eq_some, list_eq, Annotations.ofRecord?_eq] at h
  obtain ⟨r, hr, values, hv, annotations, ha, rfl⟩ := h
  obtain ⟨r', hr', t⟩ := trims hj (Nat.le_refl _) hr
  have hv := EnumValue.keeps.of_list (t "values") hv
  have ha := Annotations.keeps t ha
  simp [ofJson?, hr', hv, ha]

theorem Parameter.keeps : Keeps Parameter.ofJson? := by
  intro j p hj h
  simp only [Parameter.ofJson?, bind_eq_some, pure_eq_some, optText_eq] at h
  obtain ⟨r, hr, kind, hk, name, hn, type, hy, multiplicity, hm, rfl⟩ := h
  obtain ⟨r', hr', t⟩ := trims hj (Nat.le_refl _) hr
  have hk := text_keeps.of_optional (t "_type") rfl hk
  have hn := text_keeps.of_lookup (t "name") ⟨rfl, rfl⟩ hn
  have hy := Reference.keeps.of_lookup (t "class") ⟨rfl, rfl⟩ hy
  have hm := Multiplicity.keeps.of_lookup (t "multiplicity") ⟨rfl, rfl⟩ hm
  simp [ofJson?, hr', hk, hn, hy, hm]

theorem json_agrees : Agrees n Json.IsCanonical some some := by
  intro j a _ _ ha h
  rw [← Option.some.inj h] at ha ⊢
  exact congrArg some ha

def Function.IsCanonical (f : Function) : Prop := ∀ j ∈ f.body, j.IsCanonical

theorem Function.agrees : Agrees n IsCanonical Function.ofJson? Function.ofJson? := by
  intro j f hj _ hf h
  simp only [Function.ofJson?, bind_eq_some, pure_eq_some, list_eq, Annotations.ofRecord?_eq] at h
  obtain ⟨r, hr, parameters, hp, type, hy, multiplicity, hm, body, hb, annotations, ha, rfl⟩ := h
  obtain ⟨r', hr', t⟩ := trims hj (Nat.le_refl _) hr
  have hp := Parameter.keeps.of_list (t "parameters") hp
  have hy := Reference.keeps.of_lookup (t "returnType") ⟨rfl, rfl⟩ hy
  have hm := Multiplicity.keeps.of_lookup (t "returnMultiplicity") ⟨rfl, rfl⟩ hm
  have hb := json_agrees.of_list (t "body") hf hb
  have ha := Annotations.keeps t ha
  simp [ofJson?, hr', hp, hy, hm, hb, ha]

theorem ColumnType.keeps : Keeps ColumnType.ofJson? := by
  intro j c hj h
  simp only [ColumnType.ofJson?, bind_eq_some, pure_eq_some, optional_eq] at h
  obtain ⟨r, hr, name, hn, size, hs, precision, hp, scale, hc, rfl⟩ := h
  obtain ⟨r', hr', t⟩ := trims hj (Nat.le_refl _) hr
  have hn := text_keeps.of_lookup (t "_type") ⟨rfl, rfl⟩ hn
  have hs := nat64_keeps.of_optional (t "size") rfl hs
  have hp := nat64_keeps.of_optional (t "precision") rfl hp
  have hc := nat64_keeps.of_optional (t "scale") rfl hc
  simp [ofJson?, hr', hn, hs, hp, hc]

theorem Column.keeps : Keeps Column.ofJson? := by
  intro j c hj h
  simp only [Column.ofJson?, bind_eq_some, pure_eq_some] at h
  obtain ⟨r, hr, name, hn, type, hy, nullable, hb, rfl⟩ := h
  obtain ⟨r', hr', t⟩ := trims hj (Nat.le_refl _) hr
  have hn := text_keeps.of_lookup (t "name") ⟨rfl, rfl⟩ hn
  have hy := ColumnType.keeps.of_lookup (t "type") ⟨rfl, rfl⟩ hy
  have hb := bool_keeps.of_lookup (t "nullable") ⟨rfl, rfl⟩ hb
  simp [ofJson?, hr', hn, hy, hb]

theorem Table.keeps : Keeps Table.ofJson? := by
  intro j a hj h
  simp only [Table.ofJson?, bind_eq_some, pure_eq_some, list_eq, texts_eq] at h
  obtain ⟨r, hr, name, hn, columns, hc, key, hk, rfl⟩ := h
  obtain ⟨r', hr', t⟩ := trims hj (Nat.le_refl _) hr
  have hn := text_keeps.of_lookup (t "name") ⟨rfl, rfl⟩ hn
  have hc := Column.keeps.of_list (t "columns") hc
  have hk := text_keeps.of_list (t "primaryKey") hk
  simp [ofJson?, hr', hn, hc, hk]

theorem Schema.keeps : Keeps Schema.ofJson? := by
  intro j s hj h
  simp only [Schema.ofJson?, bind_eq_some, pure_eq_some, list_eq] at h
  obtain ⟨r, hr, name, hn, tables, ht, rfl⟩ := h
  obtain ⟨r', hr', t⟩ := trims hj (Nat.le_refl _) hr
  have hn := text_keeps.of_lookup (t "name") ⟨rfl, rfl⟩ hn
  have ht := Table.keeps.of_list (t "tables") ht
  simp [ofJson?, hr', hn, ht]

theorem TablePointer.keeps : Keeps TablePointer.ofJson? := by
  intro j p hj h
  simp only [TablePointer.ofJson?, bind_eq_some, pure_eq_some, withDefault_eq] at h
  obtain ⟨r, hr, tag, hg, table, ht, schema, hs, database, hd, rfl⟩ := h
  obtain ⟨r', hr', t⟩ := trims hj (Nat.le_refl _) hr
  have hg := text_keeps.of_default (t "_type") ⟨rfl, rfl⟩ hg
  have ht := text_keeps.of_lookup (t "table") ⟨rfl, rfl⟩ ht
  have hs := text_keeps.of_lookup (t "schema") ⟨rfl, rfl⟩ hs
  have hd := Reference.keeps.of_lookup (t "database") ⟨rfl, rfl⟩ hd
  simp [ofJson?, hr', hg, ht, hs, hd]

theorem JoinPointer.keeps : Keeps JoinPointer.ofJson? := by
  intro j p hj h
  simp only [JoinPointer.ofJson?, bind_eq_some, pure_eq_some, optText_eq] at h
  obtain ⟨r, hr, database, hd, name, hn, joinType, ht, rfl⟩ := h
  obtain ⟨r', hr', t⟩ := trims hj (Nat.le_refl _) hr
  have hd := Reference.keeps.of_lookup (t "db") ⟨rfl, rfl⟩ hd
  have hn := text_keeps.of_lookup (t "name") ⟨rfl, rfl⟩ hn
  have ht := text_keeps.of_optional (t "joinType") rfl ht
  simp [ofJson?, hr', hd, hn, ht]

namespace RelationalOperation

mutual

def IsCanonical : RelationalOperation → Prop
  | .column _ _ _ => True
  | .call _ parameters => AreCanonical parameters
  | .literal j => j.IsStated
  | .joined _ none => True
  | .joined _ (some element) => element.IsCanonical

def AreCanonical : List RelationalOperation → Prop
  | [] => True
  | o :: rest => o.IsCanonical ∧ AreCanonical rest

end

theorem areCanonical_iff {os : List RelationalOperation} :
    AreCanonical os ↔ ∀ o ∈ os, o.IsCanonical := by
  induction os with
  | nil => simp [AreCanonical]
  | cons o os ih => simp [AreCanonical, ih]

theorem strict_read (fuel : Nat) (nested : Bool) : Strict (read fuel nested) where
  null := by cases fuel <;> rfl
  nil := by cases fuel <;> rfl

theorem agrees_read (fuel n : Nat) (nested : Bool) :
    Agrees n IsCanonical (read fuel nested) (read n nested) := by
  induction fuel generalizing n nested with
  | zero =>
    intro j o _ _ _ h
    cases h
  | succ fuel ih =>
    intro j o hj hn ho h
    cases n with
    | zero => exact absurd hn (Nat.not_lt_zero _)
    | succ n =>
      obtain ⟨⟨tag, d⟩, hd, h⟩ := bind_eq_some.mp h
      obtain ⟨hd', hregular, hle⟩ := tagged?_canonical hj hd
      have hle := Nat.le_trans hle (Nat.le_of_lt_succ hn)
      simp only at h
      split at h
      · simp only [bind_eq_some, pure_eq_some] at h
        obtain ⟨r, hr, table, ht, tableAlias, ha, name, hn, rfl⟩ := h
        obtain ⟨r', hr', t⟩ := trims hregular hle hr
        have ht := TablePointer.keeps.of_lookup (t "table") ⟨rfl, rfl⟩ ht
        have ha := text_keeps.of_lookup (t "tableAlias") ⟨rfl, rfl⟩ ha
        have hn := text_keeps.of_lookup (t "column") ⟨rfl, rfl⟩ hn
        simp [read, hd', hr', ht, ha, hn]
      · simp only [bind_eq_some, pure_eq_some, list_eq] at h
        obtain ⟨r, hr, name, hn, parameters, hp, rfl⟩ := h
        obtain ⟨r', hr', t⟩ := trims hregular hle hr
        rw [IsCanonical, areCanonical_iff] at ho
        have hn := text_keeps.of_lookup (t "funcName") ⟨rfl, rfl⟩ hn
        have hp := (ih n true).of_list (t "parameters") ho hp
        simp [read, hd', hr', hn, hp]
      · simp only [bind_eq_some, pure_eq_some] at h
        obtain ⟨r, hr, value, hv, rfl⟩ := h
        obtain ⟨r', hr', t⟩ := trims hregular hle hr
        rw [IsCanonical] at ho
        have hv := (t "value").eq_some hv ho
        simp [read, hd', hr', hv]
      · simp only [bind_eq_some, pure_eq_some, list_eq, optional_eq] at h
        obtain ⟨r, hr, joins, hjs, element, he, rfl⟩ := h
        obtain ⟨r', hr', t⟩ := trims hregular hle hr
        have helement : ∀ e ∈ element, e.IsCanonical := by
          intro e hm
          obtain rfl := Option.mem_def.mp hm
          rwa [IsCanonical] at ho
        have hnil : ∀ o, read fuel true (.arr []) = some o → ¬o.IsCanonical := by
          intro o he
          rw [(strict_read fuel true).nil] at he
          cases he
        have hjs := JoinPointer.keeps.of_list (t "joins") hjs
        have he := (ih n true).of_optional (t "relationalElement") hnil helement he
        simp [read, hd', hr', hjs, he]
      · cases h

theorem agrees (nested : Bool) : Agrees n IsCanonical (ofJson? nested) (ofJson? nested) :=
  fun j _ hj _ ho h => agrees_read (j.depth + 1) (j.canonical.depth + 1) nested hj
    (Nat.lt_succ_self _) ho h

end RelationalOperation

def Join.IsCanonical (j : Join) : Prop := j.operation.IsCanonical

theorem Join.agrees : Agrees n IsCanonical Join.ofJson? Join.ofJson? := by
  intro j k hj _ hk h
  simp only [Join.ofJson?, bind_eq_some, pure_eq_some] at h
  obtain ⟨r, hr, name, hn, operation, ho, rfl⟩ := h
  obtain ⟨r', hr', t⟩ := trims hj (Nat.le_refl _) hr
  have hn := text_keeps.of_lookup (t "name") ⟨rfl, rfl⟩ hn
  have ho := (RelationalOperation.agrees false).of_lookup (t "operation") ⟨rfl, rfl⟩ hk ho
  simp [ofJson?, hr', hn, ho]

def Database.IsCanonical (d : Database) : Prop := ∀ j ∈ d.joins, j.IsCanonical

theorem Database.agrees : Agrees n IsCanonical Database.ofJson? Database.ofJson? := by
  intro j d hj _ hd h
  simp only [Database.ofJson?, bind_eq_some, pure_eq_some, list_eq] at h
  obtain ⟨r, hr, includes, hi, schemas, hs, joins, hjs, rfl⟩ := h
  obtain ⟨r', hr', t⟩ := trims hj (Nat.le_refl _) hr
  have hi := Reference.keeps.of_list (t "includedStores") hi
  have hs := Schema.keeps.of_list (t "schemas") hs
  have hjs := Join.agrees.of_list (t "joins") hd hjs
  simp [ofJson?, hr', hi, hs, hjs]

end ModelGraph
