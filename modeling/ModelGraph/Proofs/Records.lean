import ModelGraph.Proofs.Members
import ModelGraph.Proofs.Outcomes

namespace ModelGraph.Record

open Json

variable {α : Type} {r s : Record} {name key : String} {names : List String}

/-- A list among the members of a document, if it is written at all. -/
def listed (items : List Json) : Option Json := if items.isEmpty then none else some (.arr items)

/-- A free-form value among the members of a document, if it is written at all. -/
def stated (j : Json) : Option Json := if j.isNull then none else some j

@[simp]
theorem lookup_written_append :
    (sortMembers (r ++ s)).lookup key =
      ((sortMembers s).lookup key).or ((sortMembers r).lookup key) := by
  rw [lookup_sortMembers, lookup_sortMembers, lookup_sortMembers, List.reverse_append,
    List.lookup_append]

@[simp]
theorem lookup_written_field {j : Json} :
    (sortMembers (field name j)).lookup key = if key = name then some j else none := by
  by_cases h : key = name
  · rw [if_pos h, h]
    exact List.lookup_cons_self
  · rw [if_neg h]
    exact lookup_cons_ne h

@[simp]
theorem lookup_written_optField {o : Option Json} :
    (sortMembers (optField name o)).lookup key = if key = name then o else none := by
  cases o with
  | none => simp [optField, sortMembers]
  | some j => exact lookup_written_field

@[simp]
theorem lookup_written_listField {items : List Json} :
    (sortMembers (listField name items)).lookup key =
      if key = name then listed items else none := by
  cases items with
  | nil => simp [listField, listed, sortMembers]
  | cons j rest => exact lookup_written_field

@[simp]
theorem lookup_written_valueField {j : Json} :
    (sortMembers (valueField name j)).lookup key = if key = name then stated j else none := by
  rw [valueField, stated]
  cases j.isNull with
  | false => exact lookup_written_field
  | true => simp [sortMembers]

def Within (p : String → Prop) (r : Record) : Prop := ∀ m ∈ r, p m.1

variable {p : String → Prop}

@[simp]
theorem within_append : Within p (r ++ s) ↔ Within p r ∧ Within p s :=
  List.forall_mem_append

@[simp]
theorem within_field {j : Json} (h : p name) : Within p (field name j) := by
  intro m hm
  rw [List.mem_singleton.mp hm]
  exact h

@[simp]
theorem within_optField {o : Option Json} (h : p name) : Within p (optField name o) := by
  cases o with
  | none => exact fun m hm => absurd hm List.not_mem_nil
  | some j => exact within_field h

@[simp]
theorem within_listField {items : List Json} (h : p name) :
    Within p (listField name items) := by
  cases items with
  | nil => exact fun m hm => absurd hm List.not_mem_nil
  | cons j rest => exact within_field h

@[simp]
theorem within_valueField {j : Json} (h : p name) : Within p (valueField name j) := by
  rw [valueField]
  cases j.isNull with
  | false => exact within_field h
  | true => exact fun m hm => absurd hm List.not_mem_nil

theorem lookup_of_within (h : Within p r) (hk : ¬p key) : (sortMembers r).lookup key = none := by
  rw [lookup_sortMembers]
  apply List.lookup_eq_none_iff.mpr
  intro m hm
  have hne : key ≠ m.1 := fun he => hk (he ▸ h m (List.mem_reverse.mp hm))
  simpa using hne

theorem ofJson?_toJson (h : Within (· ∈ names) r) :
    Record.ofJson? names r.toJson = some (sortMembers r) := by
  have hall : (sortMembers r).all (fun m => names.contains m.1) = true := by
    apply List.all_eq_true.mpr
    intro m hm
    exact List.contains_iff_mem.mpr (h m (mem_of_mem_sortMembers hm))
  rw [toJson, object, Record.ofJson?, if_pos hall]

@[simp]
theorem text?_str (s : String) : (Json.str s).text? = some s := rfl

@[simp]
theorem bool?_bool (b : Bool) : (Json.bool b).bool? = some b := rfl

theorem depth_le_of_mem {members : List (String × Json)} {m : String × Json} (h : m ∈ members) :
    m.2.depth ≤ depthMembers members := by
  induction members with
  | nil => exact absurd h List.not_mem_nil
  | cons a members ih =>
    rw [depthMembers]
    cases List.mem_cons.mp h with
    | inl he => exact he ▸ Nat.le_max_left _ _
    | inr hm => exact Nat.le_trans (ih hm) (Nat.le_max_right _ _)

theorem depth_lt_of_lookup (key : String) {members : List (String × Json)} {j : Json}
    (h : members.lookup key = some j) : j.depth < (Json.obj members).depth := by
  obtain ⟨before, after, he, -⟩ := List.lookup_eq_some_iff.mp h
  have hm : (key, j) ∈ members := he ▸ by simp
  rw [depth]
  exact Nat.lt_succ_of_le (depth_le_of_mem hm)

theorem depth_lt_of_mem_items {items : List Json} {j : Json} (h : j ∈ items) :
    j.depth < (Json.arr items).depth := by
  have hle : j.depth ≤ depthItems items := by
    induction items with
    | nil => exact absurd h List.not_mem_nil
    | cons i items ih =>
      rw [depthItems]
      cases List.mem_cons.mp h with
      | inl he => exact he ▸ Nat.le_max_left _ _
      | inr hm => exact Nat.le_trans (ih hm) (Nat.le_max_right _ _)
  rw [depth]
  exact Nat.lt_succ_of_le hle

theorem depth_lt_of_listed (key : String) {members : List (String × Json)} {items : List Json}
    {j : Json} (h : members.lookup key = listed items) (hj : j ∈ items) :
    j.depth + 1 < (Json.obj members).depth := by
  cases items with
  | nil => exact absurd hj List.not_mem_nil
  | cons i items =>
    exact Nat.lt_of_le_of_lt (depth_lt_of_mem_items hj) (depth_lt_of_lookup key h)

theorem tagged_eq {tag : String} : tagged tag r = toJson (field "_type" (.str tag) ++ r) := rfl

theorem tagged?_tagged {tags : List String} {nested : Bool} {tag : String} (ht : tag ∈ tags)
    (hr : Within (· ≠ "_type") r) :
    tagged? tags nested (tagged tag r) = some (tag, toJson r) := by
  have hl : (sortMembers (("_type", .str tag) :: r)).lookup "_type" = some (.str tag) := by
    rw [lookup_sortMembers, List.reverse_cons, List.lookup_append]
    have hn : r.reverse.lookup "_type" = none := by
      apply List.lookup_eq_none_iff.mpr
      intro m hm
      exact bne_iff_ne.mpr (hr m (List.mem_reverse.mp hm)).symm
    rw [hn]
    rfl
  have hv : variant? tags nested (.str tag) = some tag := by simp [variant?, ht]
  have hf : (sortMembers (("_type", .str tag) :: r)).filter (fun m => m.1 != "_type") =
      sortMembers r := by
    rw [filter_sortMembers fun k => k != "_type"]
    have hfr : r.filter (fun m => m.1 != "_type") = r := by
      apply List.filter_eq_self.mpr
      intro m hm
      simpa using hr m hm
    rw [List.filter_cons_of_neg (by simp), hfr]
  rw [tagged, object, tagged?, hl]
  simp only [Option.bind_eq_bind, Option.bind_some, hv, hf]
  rfl

section Readers

variable {read : Json → Option α} {write : α → Json}

def readDefault (value : α) (read : Json → Option α) : Option Json → Option α
  | some j => read j
  | none => some value

def readOptional (read : Json → Option α) : Option Json → Option (Option α)
  | some j => if j.isNull then some none else (read j).map some
  | none => some none

@[simp]
theorem required_eq : r.required name read = (r.lookup name).bind read := rfl

@[simp]
theorem text_eq : r.text name = (r.lookup name).bind text? := rfl

@[simp]
theorem withDefault_eq {value : α} :
    r.withDefault name value read = readDefault value read (r.lookup name) := by
  rw [withDefault]
  cases r.lookup name <;> rfl

@[simp]
theorem list_eq : r.list name read = readDefault [] (list? read) (r.lookup name) := withDefault_eq

@[simp]
theorem texts_eq : r.texts name = readDefault [] (list? text?) (r.lookup name) := withDefault_eq

@[simp]
theorem flag_eq : r.flag name = readDefault false bool? (r.lookup name) := withDefault_eq

@[simp]
theorem optional_eq : r.optional name read = readOptional read (r.lookup name) := by
  rw [optional, withDefault_eq]
  cases r.lookup name <;> rfl

@[simp]
theorem optText_eq : r.optText name = readOptional text? (r.lookup name) := optional_eq

@[simp]
theorem value_eq : r.value name = (r.lookup name).getD .null := rfl

@[simp]
theorem requiredValue_eq : r.requiredValue name = r.lookup name := rfl

@[simp]
theorem readDefault_some {value : α} {j : Json} : readDefault value read (some j) = read j := rfl

/-- What a reader has read is read as what `again` makes of it, once it is written. -/
def Respells (read : Json → Option α) (write : α → Json) (again : α → α) : Prop :=
  ∀ ⦃j a⦄, read j = some a → read (write a) = some (again a)

def Rereads (read : Json → Option α) (write : α → Json) : Prop := Respells read write id

theorem mapM_map_eq_some {again : α → α} {as : List α}
    (h : ∀ a ∈ as, read (write a) = some (again a)) :
    (as.map write).mapM read = some (as.map again) := by
  induction as with
  | nil => rfl
  | cons a as ih =>
    rw [List.map_cons, List.mapM_cons, h a List.mem_cons_self,
      ih fun b hb => h b (List.mem_cons_of_mem _ hb)]
    rfl

theorem mem_of_list {o : Option Json} {as : List α}
    (ha : readDefault [] (list? read) o = some as) : ∀ a ∈ as, ∃ j, read j = some a := by
  cases o with
  | none =>
    cases ha
    exact fun a ha => absurd ha List.not_mem_nil
  | some j =>
    obtain ⟨items, _, hm⟩ := Option.bind_eq_some_iff.mp ha
    intro a ha
    obtain ⟨i, _, hi⟩ := mapM_eq_some hm a ha
    exact ⟨i, hi⟩

theorem respell_listed {again : α → α} {as : List α}
    (h : ∀ a ∈ as, read (write a) = some (again a)) :
    readDefault [] (list? read) (listed (as.map write)) = some (as.map again) := by
  cases as with
  | nil => rfl
  | cons a as => exact mapM_map_eq_some h

theorem readDefault_listed {as : List α} (h : ∀ a ∈ as, read (write a) = some a) :
    readDefault [] (list? read) (listed (as.map write)) = some as := by
  have hread : ∀ a ∈ as, read (write a) = some (id a) := h
  simpa using respell_listed hread

theorem exists_of_optional {o : Option Json} {a : α} (h : readOptional read o = some (some a)) :
    ∃ j, read j = some a := by
  cases o with
  | none => cases h
  | some j =>
    rw [readOptional] at h
    split at h
    · cases h
    · obtain ⟨b, hb, he⟩ := Option.map_eq_some_iff.mp h
      cases he
      exact ⟨j, hb⟩

theorem readOptional_some {j : Json} {a : α} (hj : j.isNull = false) (h : read j = some a) :
    readOptional read (some j) = some (some a) := by
  rw [readOptional, hj, if_neg Bool.false_ne_true, h]
  rfl

section Keeps

variable {again : α → α} (h : ∀ ⦃j a⦄, read j = some a → again a = a)
include h

theorem map_eq_of_list {o : Option Json} {as : List α}
    (ha : readDefault [] (list? read) o = some as) : as.map again = as := by
  have hall : ∀ a ∈ as, again a = id a := by
    intro a hm
    obtain ⟨j, hj⟩ := mem_of_list ha a hm
    exact h hj
  rw [List.map_congr_left hall, List.map_id]

theorem map_eq_of_optional {o : Option Json} {a : Option α} (ha : readOptional read o = some a) :
    a.map again = a := by
  cases a with
  | none => rfl
  | some a =>
    obtain ⟨j, hj⟩ := exists_of_optional ha
    exact congrArg some (h hj)

end Keeps

section Respells

variable {again : α → α} (h : Respells read write again)
include h

theorem Respells.of_lookup {o : Option Json} {a : α} (ha : o.bind read = some a) :
    read (write a) = some (again a) := by
  obtain ⟨j, _, hj⟩ := Option.bind_eq_some_iff.mp ha
  exact h hj

theorem Respells.of_list {o : Option Json} {as : List α}
    (ha : readDefault [] (list? read) o = some as) :
    readDefault [] (list? read) (listed (as.map write)) = some (as.map again) := by
  apply respell_listed
  intro a hm
  obtain ⟨j, hj⟩ := mem_of_list ha a hm
  exact h hj

theorem Respells.of_optional (hw : ∀ a, (write a).isNull = false) {o : Option Json} {a : Option α}
    (ha : readOptional read o = some a) :
    readOptional read (a.map write) = some (a.map again) := by
  cases a with
  | none => rfl
  | some a =>
    obtain ⟨j, hj⟩ := exists_of_optional ha
    exact readOptional_some (hw a) (h hj)

end Respells

section Rereads

variable (h : Rereads read write)
include h

theorem Rereads.of_lookup {o : Option Json} {a : α} (ha : o.bind read = some a) :
    read (write a) = some a :=
  Respells.of_lookup h ha

theorem Rereads.of_list {o : Option Json} {as : List α}
    (ha : readDefault [] (list? read) o = some as) :
    readDefault [] (list? read) (listed (as.map write)) = some as := by
  simpa using Respells.of_list h ha

theorem Rereads.of_optional (hw : ∀ a, (write a).isNull = false) {o : Option Json} {a : Option α}
    (ha : readOptional read o = some a) : readOptional read (a.map write) = some a := by
  simpa using Respells.of_optional h hw ha

end Rereads

end Readers

end ModelGraph.Record
