import ModelGraph.Proofs.Decoding
import ModelGraph.Domain.Class
import ModelGraph.Domain.Enumeration
import ModelGraph.Domain.Function

namespace ModelGraph

open HashInput

theorem Reference.toJson_path {f : Family} {r s : Reference f} (h : r.path.text = s.path.text) :
    r.toJson Link.path = s.toJson Link.path :=
  congrArg Json.str h

theorem Reference.text_of_hashInput {f : Family} {r s : Reference f}
    (h : Agree r.hashInput s.hashInput) : r.path.text = s.path.text :=
  delimits_text.rel h.tail

theorem Reference.toJsons_path {f : Family} {rs ss : List (Reference f)}
    (apart : Apart (rs.map hashInput) (ss.map hashInput)) (h : rs.map digest = ss.map digest) :
    rs.map (toJson Link.path) = ss.map (toJson Link.path) := by
  apply eq_of_forall₂
  rw [List.forall₂_map_left_iff, List.forall₂_map_right_iff]
  exact apart.forall₂_map h fun r _ s _ hrs => toJson_path (text_of_hashInput hrs)

theorem Path.ext {p q : Path} (h : p.text = q.text) : p = q := congrArg Path.mk h

namespace Multiplicity

variable {m n : Multiplicity}

/-- The lower bound fits the word that it is hashed as. -/
def IsBounded (m : Multiplicity) : Prop := m.lower < UInt64.size

theorem toString_ne_star (n : Nat) : toString n ≠ "*" := by
  intro h
  have hm : '*' ∈ (Nat.repr n).toList := by
    have h' : Nat.repr n = "*" := h
    rw [h']
    decide
  rw [Nat.toList_repr] at hm
  exact absurd (Nat.isDigit_of_mem_toDigits (by decide) (by decide) hm) (by decide)

theorem toString_inj {u v : Nat} (h : toString u = toString v) : u = v := by
  have hchars : (Nat.repr u).toList = (Nat.repr v).toList := congrArg String.toList h
  rw [Nat.toList_repr, Nat.toList_repr] at hchars
  have hread := congrArg (fun cs => Nat.ofDigitChars 10 cs 0) hchars
  simpa [Nat.ofDigitChars_toDigits] using hread

theorem eq_of_hashInput (hm : m.IsBounded) (hn : n.IsBounded)
    (h : Agree m.hashInput n.hashInput) : m = n := by
  obtain ⟨lower, upper⟩ := m
  obtain ⟨lower', upper'⟩ := n
  simp only [hashInput, List.append_assoc] at h
  obtain ⟨hlower, h⟩ := delimits_word h.tail
  have hupper := delimits_text.rel h
  have hl : lower = lower' := eq_of_natCast_mod hm hn hlower
  rw [hl]
  cases upper with
  | none =>
    cases upper' with
    | none => rfl
    | some u => exact absurd hupper.symm (toString_ne_star u)
  | some u =>
    cases upper' with
    | none => exact absurd hupper (toString_ne_star u)
    | some u' => rw [toString_inj hupper]

end Multiplicity

namespace Annotations

variable {a b : Annotations} {x y : HashInput}

def inputs (a : Annotations) : List HashInput :=
  a.stereotypes.map Stereotype.hashInput ++ a.taggedValues.map TaggedValue.hashInput

end Annotations

theorem Stereotype.toJson_eq {s t : Stereotype} (h : Agree s.hashInput t.hashInput) :
    s.toJson Link.path = t.toJson Link.path := by
  simp only [hashInput, List.append_assoc] at h
  obtain ⟨hprofile, h⟩ := delimits_text h.tail
  rw [toJson, toJson, Reference.toJson_path hprofile, delimits_text.rel h]

theorem TaggedValue.toJson_eq {s t : TaggedValue} (h : Agree s.hashInput t.hashInput) :
    s.toJson Link.path = t.toJson Link.path := by
  simp only [hashInput, List.append_assoc] at h
  obtain ⟨hprofile, h⟩ := delimits_text h.tail
  obtain ⟨htag, h⟩ := delimits_text h
  simp only [toJson, Reference.toJson_path hprofile, htag, delimits_text.rel h]

theorem map_eq_of_forall₂ {α β : Type} {f : α → β} {as bs : List α}
    (h : List.Forall₂ (fun a b => f a = f b) as bs) : as.map f = bs.map f := by
  apply eq_of_forall₂
  rwa [List.forall₂_map_left_iff, List.forall₂_map_right_iff]

theorem Annotations.record_eq {a b : Annotations} {x y : HashInput} (apart : Apart a.inputs b.inputs)
    (h : Agree (a.hashInput ++ x) (b.hashInput ++ y)) :
    a.record Link.path = b.record Link.path ∧ Agree x y := by
  simp only [hashInput, List.append_assoc] at h
  obtain ⟨hstereotypes, h⟩ := delimits_codes h
  obtain ⟨htagged, h⟩ := delimits_codes h
  have hs : a.stereotypes.map (·.toJson Link.path) = b.stereotypes.map (·.toJson Link.path) :=
    map_eq_of_forall₂ (apart.left.forall₂_map hstereotypes fun _ _ _ _ => Stereotype.toJson_eq)
  have ht : a.taggedValues.map (·.toJson Link.path) = b.taggedValues.map (·.toJson Link.path) :=
    map_eq_of_forall₂ (apart.right.forall₂_map htagged fun _ _ _ _ => TaggedValue.toJson_eq)
  rw [record, record, hs, ht]
  exact ⟨rfl, h⟩

namespace Property

def inputs (p : Property) : List HashInput :=
  p.hashInput :: p.multiplicity.hashInput :: p.annotations.inputs

theorem toJson_eq {p q : Property} (hp : p.multiplicity.IsBounded) (hq : q.multiplicity.IsBounded)
    (apart : Apart p.inputs q.inputs) (h : p.digest = q.digest) :
    p.toJson Link.path = q.toJson Link.path := by
  have hagree := apart.head h
  simp only [hashInput, List.append_assoc] at hagree
  obtain ⟨hname, hagree⟩ := delimits_text hagree.tail
  obtain ⟨hmultiplicity, hagree⟩ := delimits_code hagree
  obtain ⟨htype, hagree⟩ := delimits_text hagree
  obtain ⟨hannotations, -⟩ := Annotations.record_eq apart.tail.tail hagree.ending
  have hm := Multiplicity.eq_of_hashInput hp hq (apart.tail.head hmultiplicity)
  rw [toJson, toJson, hname, hm, Reference.toJson_path htype, hannotations]

end Property

namespace DerivedProperty

def inputs (p : DerivedProperty) : List HashInput :=
  p.hashInput :: p.returnMultiplicity.hashInput :: p.annotations.inputs

theorem sameText {p q : DerivedProperty} (hp : p.returnMultiplicity.IsBounded)
    (hq : q.returnMultiplicity.IsBounded) (apart : Apart p.inputs q.inputs)
    (h : p.digest = q.digest) : (p.toJson Link.path).SameText (q.toJson Link.path) := by
  have hagree := apart.head h
  simp only [hashInput, List.append_assoc] at hagree
  obtain ⟨hname, hagree⟩ := delimits_text hagree.tail
  obtain ⟨htype, hagree⟩ := delimits_text hagree
  obtain ⟨hmultiplicity, hagree⟩ := delimits_code hagree
  obtain ⟨hparameters, hagree⟩ := delimits_json hagree
  obtain ⟨hbody, hagree⟩ := delimits_json hagree
  obtain ⟨hannotations, -⟩ := Annotations.record_eq apart.tail.tail hagree.ending
  have hm := Multiplicity.eq_of_hashInput hp hq (apart.tail.head hmultiplicity)
  rw [toJson, toJson, hname, hm, Reference.toJson_path htype, hannotations]
  have hhead := Record.SameText.append (.refl (.field "name" (.str q.name)))
    (.valueField "parameters" hparameters)
  refine .record (.append (.append (.append (.append hhead (.refl _)) (.refl _)) ?_) (.refl _))
  exact .valueField _ hbody

end DerivedProperty

theorem Constraint.sameText {c d : Constraint} (h : Agree c.hashInput d.hashInput) :
    c.toJson.SameText d.toJson := by
  simp only [hashInput, List.append_assoc] at h
  obtain ⟨hname, h⟩ := delimits_text h.tail
  rw [toJson, toJson, hname]
  exact .record (.append (.refl _) (.field _ (delimits_json.rel h)))

theorem Profile.toJson_eq {path path' : Path} {p q : Profile}
    (h : Agree (p.hashInput path) (q.hashInput path')) : path = path' ∧ p.toJson = q.toJson := by
  simp only [hashInput, List.append_assoc] at h
  obtain ⟨hpath, h⟩ := delimits_text h.tail
  obtain ⟨hstereotypes, h⟩ := delimits_texts h
  rw [toJson, toJson, hstereotypes, delimits_texts.rel h]
  exact ⟨Path.ext hpath, rfl⟩

namespace EnumValue

def inputs (v : EnumValue) : List HashInput := v.hashInput :: v.annotations.inputs

theorem toJson_eq {v w : EnumValue} (apart : Apart v.inputs w.inputs) (h : v.digest = w.digest) :
    v.toJson Link.path = w.toJson Link.path := by
  have hagree := apart.head h
  simp only [hashInput, List.append_assoc] at hagree
  obtain ⟨hname, hagree⟩ := delimits_text hagree.tail
  obtain ⟨hannotations, -⟩ := Annotations.record_eq apart.tail hagree.ending
  rw [toJson, toJson, hname, hannotations]

end EnumValue

namespace Enumeration

def inputs (path : Path) (e : Enumeration) : List HashInput :=
  e.hashInput path :: (e.values.flatMap EnumValue.inputs ++ e.annotations.inputs)

theorem toJson_eq {path path' : Path} {e f : Enumeration}
    (apart : Apart (e.inputs path) (f.inputs path'))
    (h : Agree (e.hashInput path) (f.hashInput path')) :
    path = path' ∧ e.toJson Link.path = f.toJson Link.path := by
  simp only [hashInput, List.append_assoc] at h
  obtain ⟨hpath, h⟩ := delimits_text h.tail
  obtain ⟨hvalues, h⟩ := delimits_codes h
  obtain ⟨hannotations, -⟩ := Annotations.record_eq apart.tail.right h.ending
  have hv : e.values.map (·.toJson Link.path) = f.values.map (·.toJson Link.path) :=
    map_eq_of_forall₂ (apart.tail.left.forall₂ hvalues fun _ _ _ _ => EnumValue.toJson_eq)
  rw [toJson, toJson, hv, hannotations]
  exact ⟨Path.ext hpath, rfl⟩

end Enumeration

namespace Class

def inputs (path : Path) (c : Class) : List HashInput :=
  c.hashInput path :: (c.superTypes.map Reference.hashInput ++
    (c.properties.flatMap Property.inputs ++ (c.derivedProperties.flatMap DerivedProperty.inputs ++
      (c.constraints.map Constraint.hashInput ++ c.annotations.inputs))))

def multiplicities (c : Class) : List Multiplicity :=
  c.properties.map Property.multiplicity ++ c.derivedProperties.map DerivedProperty.returnMultiplicity

end Class

theorem Property.toJsons_eq {ps qs : List Property} (hp : ∀ p ∈ ps, p.multiplicity.IsBounded)
    (hq : ∀ q ∈ qs, q.multiplicity.IsBounded)
    (apart : Apart (ps.flatMap inputs) (qs.flatMap inputs))
    (h : ps.map digest = qs.map digest) :
    ps.map (·.toJson Link.path) = qs.map (·.toJson Link.path) :=
  map_eq_of_forall₂ (apart.forall₂ h fun p hpm q hqm => toJson_eq (hp p hpm) (hq q hqm))

theorem DerivedProperty.sameTexts {ps qs : List DerivedProperty}
    (hp : ∀ p ∈ ps, p.returnMultiplicity.IsBounded) (hq : ∀ q ∈ qs, q.returnMultiplicity.IsBounded)
    (apart : Apart (ps.flatMap inputs) (qs.flatMap inputs))
    (h : ps.map digest = qs.map digest) :
    List.Forall₂ Json.SameText (ps.map (·.toJson Link.path)) (qs.map (·.toJson Link.path)) := by
  rw [List.forall₂_map_left_iff, List.forall₂_map_right_iff]
  exact apart.forall₂ h fun p hpm q hqm => sameText (hp p hpm) (hq q hqm)

namespace Class

variable {path path' : Path} {c d : Class}

theorem sameText (hc : ∀ m ∈ c.multiplicities, m.IsBounded)
    (hd : ∀ m ∈ d.multiplicities, m.IsBounded) (apart : Apart (c.inputs path) (d.inputs path'))
    (h : Agree (c.hashInput path) (d.hashInput path')) :
    path = path' ∧ (c.toJson Link.path).SameText (d.toJson Link.path) := by
  simp only [multiplicities, List.mem_append, List.mem_map, or_imp, forall_and,
    forall_exists_index, and_imp, forall_apply_eq_imp_iff₂] at hc hd
  simp only [hashInput, List.append_assoc] at h
  obtain ⟨hpath, h⟩ := delimits_text h.tail
  obtain ⟨hsuper, h⟩ := delimits_codes h
  obtain ⟨hproperties, h⟩ := delimits_codes h
  obtain ⟨hderived, h⟩ := delimits_codes h
  obtain ⟨hconstraints, h⟩ := delimits_codes h
  have hs := Reference.toJsons_path apart.tail.left hsuper
  have hp := Property.toJsons_eq hc.1 hd.1 apart.tail.right.left hproperties
  have hq := DerivedProperty.sameTexts hc.2 hd.2 apart.tail.right.right.left hderived
  have hcs : List.Forall₂ Json.SameText (c.constraints.map Constraint.toJson)
      (d.constraints.map Constraint.toJson) := by
    rw [List.forall₂_map_left_iff, List.forall₂_map_right_iff]
    exact apart.tail.right.right.right.left.forall₂_map hconstraints
      fun _ _ _ _ => Constraint.sameText
  obtain ⟨ha, -⟩ := Annotations.record_eq apart.tail.right.right.right.right h.ending
  rw [toJson, toJson, hs, hp, ha]
  refine ⟨Path.ext hpath, .record ?_⟩
  exact .append (.append (.append (.refl _) (.listField _ hq)) (.listField _ hcs)) (.refl _)

end Class

namespace Association

variable {path path' : Path} {a b : Association}

def inputs (path : Path) (a : Association) : List HashInput :=
  a.hashInput path :: (a.properties.flatMap Property.inputs ++
    (a.derivedProperties.flatMap DerivedProperty.inputs ++ a.annotations.inputs))

def multiplicities (a : Association) : List Multiplicity :=
  a.properties.map Property.multiplicity ++ a.derivedProperties.map DerivedProperty.returnMultiplicity

theorem sameText (ha : ∀ m ∈ a.multiplicities, m.IsBounded)
    (hb : ∀ m ∈ b.multiplicities, m.IsBounded) (apart : Apart (a.inputs path) (b.inputs path'))
    (h : Agree (a.hashInput path) (b.hashInput path')) :
    path = path' ∧ (a.toJson Link.path).SameText (b.toJson Link.path) := by
  simp only [multiplicities, List.mem_append, List.mem_map, or_imp, forall_and,
    forall_exists_index, and_imp, forall_apply_eq_imp_iff₂] at ha hb
  simp only [hashInput, List.append_assoc] at h
  obtain ⟨hpath, h⟩ := delimits_text h.tail
  obtain ⟨hproperties, h⟩ := delimits_codes h
  obtain ⟨hderived, h⟩ := delimits_codes h
  have hp := Property.toJsons_eq ha.1 hb.1 apart.tail.left hproperties
  have hq := DerivedProperty.sameTexts ha.2 hb.2 apart.tail.right.left hderived
  obtain ⟨hannotations, -⟩ := Annotations.record_eq apart.tail.right.right h.ending
  rw [toJson, toJson, hp, hannotations]
  exact ⟨Path.ext hpath, .record (.append (.append (.refl _) (.listField _ hq)) (.refl _))⟩

end Association

namespace Parameter

def plain (p : Parameter) : Parameter := { p with kind := none }

def inputs (p : Parameter) : List HashInput := [p.hashInput, p.multiplicity.hashInput]

variable {p q : Parameter}

theorem toJson_eq (hp : p.multiplicity.IsBounded) (hq : q.multiplicity.IsBounded)
    (apart : Apart p.inputs q.inputs) (h : p.digest = q.digest) (hk : p.kind = q.kind) :
    p.toJson Link.path = q.toJson Link.path := by
  have hagree := apart.head h
  simp only [hashInput, List.append_assoc] at hagree
  obtain ⟨hname, hagree⟩ := delimits_text hagree.tail
  obtain ⟨htype, hagree⟩ := delimits_text hagree
  have hm := Multiplicity.eq_of_hashInput hp hq (apart.tail.head (delimits_code.rel hagree))
  rw [toJson, toJson, hk, hname, hm, Reference.toJson_path htype]

end Parameter

namespace Function

variable {path path' : Path} {f g : Function}

def plain (f : Function) : Function := { f with parameters := f.parameters.map Parameter.plain }

def inputs (path : Path) (f : Function) : List HashInput :=
  f.hashInput path :: f.returnMultiplicity.hashInput ::
    (f.parameters.flatMap Parameter.inputs ++ f.annotations.inputs)

def multiplicities (f : Function) : List Multiplicity :=
  f.returnMultiplicity :: f.parameters.map Parameter.multiplicity

theorem sameText (hf : ∀ m ∈ f.multiplicities, m.IsBounded)
    (hg : ∀ m ∈ g.multiplicities, m.IsBounded) (apart : Apart (f.inputs path) (g.inputs path'))
    (h : Agree (f.hashInput path) (g.hashInput path'))
    (hk : f.parameters.map Parameter.kind = g.parameters.map Parameter.kind) :
    path = path' ∧ (f.toJson Link.path).SameText (g.toJson Link.path) := by
  simp only [multiplicities, List.forall_mem_cons, List.forall_mem_map] at hf hg
  simp only [hashInput, List.append_assoc] at h
  obtain ⟨hpath, h⟩ := delimits_text h.tail
  obtain ⟨hparameters, h⟩ := delimits_codes h
  obtain ⟨hreturn, h⟩ := delimits_text h
  obtain ⟨hmultiplicity, h⟩ := delimits_code h
  obtain ⟨ha, h⟩ := Annotations.record_eq apart.tail.tail.right h
  have hbody := delimits_json.flatMap_end (fun j => text_ne_nil j.compact) h
  have hm := Multiplicity.eq_of_hashInput hf.1 hg.1 (apart.tail.head hmultiplicity)
  have hp : f.parameters.map (·.toJson Link.path) = g.parameters.map (·.toJson Link.path) := by
    have hall := apart.tail.tail.left.forall₂ hparameters
      fun p hpm q hqm => Parameter.toJson_eq (hf.2 p hpm) (hg.2 q hqm)
    rw [← List.forall₂_eq_eq_eq, List.forall₂_map_left_iff, List.forall₂_map_right_iff] at hk
    exact map_eq_of_forall₂ (List.Forall₂.mp (fun _ _ hj hkind => hj hkind) hall hk)
  rw [toJson, toJson, hp, hm, ha, Reference.toJson_path hreturn]
  exact ⟨Path.ext hpath, .record (.append (.append (.refl _) (.listField _ hbody)) (.refl _))⟩

theorem hashInput_plain (path : Path) (f : Function) : f.plain.hashInput path = f.hashInput path := by
  rw [hashInput, plain, List.map_map]
  rfl

theorem inputs_plain (path : Path) (f : Function) : f.plain.inputs path = f.inputs path := by
  rw [inputs, hashInput_plain, plain, List.flatMap_map]
  rfl

theorem multiplicities_plain (f : Function) : f.plain.multiplicities = f.multiplicities := by
  rw [multiplicities, plain, List.map_map]
  rfl

theorem plain_sameText (hf : ∀ m ∈ f.multiplicities, m.IsBounded)
    (hg : ∀ m ∈ g.multiplicities, m.IsBounded) (apart : Apart (f.inputs path) (g.inputs path'))
    (h : Agree (f.hashInput path) (g.hashInput path')) :
    path = path' ∧ (f.plain.toJson Link.path).SameText (g.plain.toJson Link.path) := by
  have hk : f.plain.parameters.map Parameter.kind = g.plain.parameters.map Parameter.kind := by
    simp only [hashInput, List.append_assoc] at h
    have hlength := congrArg List.length (delimits_codes (delimits_text h.tail).2).1
    rw [List.length_map, List.length_map] at hlength
    simp [plain, Parameter.plain, Function.comp_def, hlength]
  rw [← multiplicities_plain] at hf hg
  rw [← f.inputs_plain, ← g.inputs_plain] at apart
  rw [← f.hashInput_plain, ← g.hashInput_plain] at h
  exact sameText hf hg apart h hk

end Function
end ModelGraph
