import Mathlib.Logic.Relation
import ModelGraph.Entity
import ModelGraph.Proofs.CanonicalForms

namespace ModelGraph

def Double.unsignedZero (d : Double) : Double := if d.isZero then ⟨0⟩ else d

theorem Double.agrees_iff {d e : Double} :
    d.agrees e = true ↔ d.unsignedZero = e.unsignedZero := by
  have hzero : (⟨0⟩ : Double).isZero = true := by decide
  rw [agrees, unsignedZero, unsignedZero, Bool.or_eq_true, Bool.and_eq_true, beq_iff_eq]
  by_cases hd : d.isZero = true
  · by_cases he : e.isZero = true
    · simp [hd, he]
    · have hne : ¬d = e := fun h => he (h ▸ hd)
      have hne' : ¬(⟨0⟩ : Double) = e := fun h => he (h ▸ hzero)
      simp [hd, he, hne, hne']
  · by_cases he : e.isZero = true
    · have hne : ¬d = e := fun h => hd (h ▸ he)
      have hne' : ¬d = ⟨0⟩ := fun h => hd (h ▸ hzero)
      simp [hd, he, hne, hne']
    · simp [hd, he]

def JsonNumber.unsignedZero : JsonNumber → JsonNumber
  | .int n => .int n
  | .double d => .double d.unsignedZero

theorem JsonNumber.agrees_iff {m n : JsonNumber} :
    m.agrees n = true ↔ m.unsignedZero = n.unsignedZero := by
  cases m <;> cases n <;> simp [agrees, unsignedZero, Double.agrees_iff]

namespace Json

mutual

def unsignedZeros : Json → Json
  | .arr items => .arr (unsignedZerosItems items)
  | .obj members => .obj (unsignedZerosMembers members)
  | .null => .null
  | .bool b => .bool b
  | .num n => .num n.unsignedZero
  | .str s => .str s

def unsignedZerosItems : List Json → List Json
  | [] => []
  | j :: rest => j.unsignedZeros :: unsignedZerosItems rest

def unsignedZerosMembers : List (String × Json) → List (String × Json)
  | [] => []
  | (k, v) :: rest => (k, v.unsignedZeros) :: unsignedZerosMembers rest

end

mutual

theorem agrees_iff (a b : Json) : a.agrees b = true ↔ a.unsignedZeros = b.unsignedZeros := by
  cases a <;> cases b <;>
    simp [agrees, unsignedZeros, JsonNumber.agrees_iff, agreeItems_iff, agreeMembers_iff]

theorem agreeItems_iff (as bs : List Json) :
    agreeItems as bs = true ↔ unsignedZerosItems as = unsignedZerosItems bs := by
  match as, bs with
  | [], [] => simp [agreeItems]
  | [], _ :: _ => simp [agreeItems, unsignedZerosItems]
  | _ :: _, [] => simp [agreeItems, unsignedZerosItems]
  | a :: as, b :: bs =>
    rw [agreeItems, unsignedZerosItems, unsignedZerosItems, Bool.and_eq_true, agrees_iff a b,
      agreeItems_iff as bs, List.cons.injEq]

theorem agreeMembers_iff (as bs : List (String × Json)) :
    agreeMembers as bs = true ↔ unsignedZerosMembers as = unsignedZerosMembers bs := by
  match as, bs with
  | [], [] => simp [agreeMembers]
  | [], _ :: _ => simp [agreeMembers, unsignedZerosMembers]
  | _ :: _, [] => simp [agreeMembers, unsignedZerosMembers]
  | (k, a) :: as, (l, b) :: bs =>
    rw [agreeMembers, unsignedZerosMembers, unsignedZerosMembers, Bool.and_eq_true,
      Bool.and_eq_true, beq_iff_eq, agrees_iff a b, agreeMembers_iff as bs, List.cons.injEq,
      Prod.mk.injEq]

end

end Json

namespace Entity

theorem agrees_iff {a b : Entity} : a.agrees b = true ↔ a.path = b.path ∧
    a.classifier = b.classifier ∧ a.content.unsignedZeros = b.content.unsignedZeros := by
  rw [agrees, Bool.and_eq_true, Bool.and_eq_true, beq_iff_eq, beq_iff_eq, Json.agrees_iff,
    and_assoc]

theorem agrees_comm (a b : Entity) : a.agrees b = b.agrees a := by
  rw [Bool.eq_iff_iff, agrees_iff, agrees_iff, eq_comm, eq_comm (a := a.classifier),
    eq_comm (a := a.content.unsignedZeros)]

end Entity

open Relation

namespace Json

/-- A member that says nothing or a null item is removed, at any depth. -/
inductive Removal : Json → Json → Prop
  | member {before after : List (String × Json)} {k : String} {v : Json}
    (absent : v.isAbsent = true) :
    Removal (.obj (before ++ (k, v) :: after)) (.obj (before ++ after))
  | item {before after : List Json} :
    Removal (.arr (before ++ .null :: after)) (.arr (before ++ after))
  | inMember {before after : List (String × Json)} {k : String} {v w : Json}
    (inner : Removal v w) :
    Removal (.obj (before ++ (k, v) :: after)) (.obj (before ++ (k, w) :: after))
  | inItem {before after : List Json} {i j : Json} (inner : Removal i j) :
    Removal (.arr (before ++ i :: after)) (.arr (before ++ j :: after))

/-- Removals and insertions turn one value into the other. -/
def Equivalent : Json → Json → Prop := EqvGen Removal

/-- Members are sorted by key, each key once, at every depth. -/
def InOrder (j : Json) : Prop := j.normal = j

/-- Removals and insertions turn one value into the other, and all values between them are in
normal order. -/
def EquivalentInOrder : Json → Json → Prop := EqvGen fun a b => a.InOrder ∧ b.InOrder ∧ Removal a b

/-- The same where values that agree count as one. -/
def AlikeInOrder : Json → Json → Prop :=
  EqvGen fun a b => a.InOrder ∧ b.InOrder ∧ (Removal a b ∨ a.agrees b = true)

variable {a b c i j v w : Json} {items : List Json} {members : List (String × Json)} {k : String}

theorem canonicalItems_append (before after : List Json) :
    canonicalItems (before ++ after) = canonicalItems before ++ canonicalItems after := by
  induction before with
  | nil => rfl
  | cons i before ih =>
    rw [List.cons_append, canonicalItems, canonicalItems, ih]
    by_cases hi : i.isNull = true
    · rw [if_pos hi, if_pos hi]
    · rw [if_neg hi, if_neg hi, List.cons_append]

theorem canonicalMembers_append (before after : List (String × Json)) :
    canonicalMembers (before ++ after) = canonicalMembers before ++ canonicalMembers after := by
  induction before with
  | nil => rfl
  | cons m before ih =>
    obtain ⟨k, v⟩ := m
    rw [List.cons_append, canonicalMembers, canonicalMembers, ih]
    by_cases hv : v.canonical.isAbsent = true
    · rw [if_pos hv, if_pos hv]
    · rw [if_neg hv, if_neg hv, List.cons_append]

theorem isAbsent_canonical_of_isAbsent (h : v.isAbsent = true) : v.canonical.isAbsent = true := by
  cases v with
  | null => rfl
  | arr items =>
    cases items with
    | nil => rfl
    | cons i items => cases h
  | _ => cases h

theorem Removal.isNull_eq (h : Removal a b) : a.isNull = b.isNull := by
  cases h <;> rfl

theorem Removal.canonical_eq (h : Removal a b) : a.canonical = b.canonical := by
  induction h with
  | member absent =>
    rw [canonical, canonical, canonicalMembers_append, canonicalMembers_append, canonicalMembers,
      if_pos (isAbsent_canonical_of_isAbsent absent)]
  | item =>
    have hnull : Json.null.isNull = true := rfl
    rw [canonical, canonical, canonicalItems_append, canonicalItems_append, canonicalItems,
      if_pos hnull]
  | inMember inner ih =>
    rw [canonical, canonical, canonicalMembers_append, canonicalMembers_append, canonicalMembers,
      canonicalMembers, ih]
  | inItem inner ih =>
    rw [canonical, canonical, canonicalItems_append, canonicalItems_append, canonicalItems,
      canonicalItems, ih, inner.isNull_eq]

theorem eq_of_eqvGen {α β : Type} {r : α → α → Prop} {f : α → β} {x y : α}
    (h : ∀ x y, r x y → f x = f y) (hxy : EqvGen r x y) : f x = f y :=
  congrArg (Quot.lift f h) (Quot.eqvGen_sound hxy)

theorem Equivalent.canonical_eq (h : Equivalent a b) : a.canonical = b.canonical :=
  eq_of_eqvGen (fun _ _ => Removal.canonical_eq) h

theorem removals_inMember {before after : List (String × Json)} (h : ReflTransGen Removal v w) :
    ReflTransGen Removal (.obj (before ++ (k, v) :: after)) (.obj (before ++ (k, w) :: after)) := by
  induction h with
  | refl => exact .refl
  | tail _ removal ih => exact ih.tail (.inMember removal)

theorem removals_inItem {before after : List Json} (h : ReflTransGen Removal i j) :
    ReflTransGen Removal (.arr (before ++ i :: after)) (.arr (before ++ j :: after)) := by
  induction h with
  | refl => exact .refl
  | tail _ removal ih => exact ih.tail (.inItem removal)

mutual

theorem removals_canonical (j : Json) : ReflTransGen Removal j j.canonical := by
  cases j with
  | arr items => exact removals_canonicalItems [] items
  | obj members => exact removals_canonicalMembers [] members
  | _ => exact .refl

theorem removals_canonicalItems (done items : List Json) :
    ReflTransGen Removal (.arr (done ++ items)) (.arr (done ++ canonicalItems items)) := by
  match items with
  | [] => exact .refl
  | i :: rest =>
    rw [canonicalItems]
    by_cases hi : i.isNull = true
    · rw [if_pos hi]
      have hnull : i = .null := by
        cases i with
        | null => rfl
        | _ => cases hi
      rw [hnull]
      exact .head .item (removals_canonicalItems done rest)
    · rw [if_neg hi]
      have hrest := removals_canonicalItems (done ++ [i.canonical]) rest
      rw [List.append_assoc, List.append_assoc, List.singleton_append,
        List.singleton_append] at hrest
      exact (removals_inItem (removals_canonical i)).trans hrest

theorem removals_canonicalMembers (done members : List (String × Json)) :
    ReflTransGen Removal (.obj (done ++ members)) (.obj (done ++ canonicalMembers members)) := by
  match members with
  | [] => exact .refl
  | (k, v) :: rest =>
    have hmember : ReflTransGen Removal (.obj (done ++ (k, v) :: rest))
        (.obj (done ++ (k, v.canonical) :: rest)) := removals_inMember (removals_canonical v)
    rw [canonicalMembers]
    by_cases hv : v.canonical.isAbsent = true
    · rw [if_pos hv]
      exact hmember.trans (.head (.member hv) (removals_canonicalMembers done rest))
    · rw [if_neg hv]
      have hrest := removals_canonicalMembers (done ++ [(k, v.canonical)]) rest
      rw [List.append_assoc, List.append_assoc, List.singleton_append,
        List.singleton_append] at hrest
      exact hmember.trans hrest

end

theorem equivalent_of_removals (h : ReflTransGen Removal a b) : Equivalent a b := by
  induction h with
  | refl => exact .refl a
  | tail _ removal ih => exact .trans _ _ _ ih (.rel _ _ removal)

theorem canonical_eq_iff : a.canonical = b.canonical ↔ Equivalent a b := by
  constructor
  · intro h
    have ha := equivalent_of_removals (removals_canonical a)
    have hb := equivalent_of_removals (removals_canonical b)
    rw [h] at ha
    exact .trans _ _ _ ha (.symm _ _ hb)
  · exact Equivalent.canonical_eq

theorem canonical_canonical (a : Json) : a.canonical.canonical = a.canonical :=
  (canonical_eq_iff.mpr (equivalent_of_removals (removals_canonical a))).symm

theorem mem_canonicalItems (h : j ∈ canonicalItems items) :
    ∃ i : Json, j = i.canonical ∧ j.isNull = false := by
  induction items with
  | nil => cases h
  | cons i items ih =>
    rw [canonicalItems] at h
    by_cases hi : i.isNull = true
    · rw [if_pos hi] at h
      exact ih h
    · rw [if_neg hi] at h
      rcases List.mem_cons.mp h with rfl | h
      · exact ⟨i, rfl, (isNull_canonical i).trans (Bool.eq_false_iff.mpr hi)⟩
      · exact ih h

theorem isAbsent_of_mem_canonicalMembers (h : (k, v) ∈ canonicalMembers members) :
    v.isAbsent = false := by
  induction members with
  | nil => cases h
  | cons m members ih =>
    obtain ⟨l, w⟩ := m
    rw [canonicalMembers] at h
    by_cases hw : w.canonical.isAbsent = true
    · rw [if_pos hw] at h
      exact ih h
    · rw [if_neg hw] at h
      rcases List.mem_cons.mp h with heq | h
      · cases heq
        exact Bool.eq_false_iff.mpr hw
      · exact ih h

theorem member_of_canonical {before after : List (String × Json)}
    (h : .obj (before ++ (k, v) :: after) = a.canonical) :
    v.isAbsent = false ∧ ∃ w : Json, v = w.canonical := by
  cases a with
  | obj members =>
    have hmem : (k, v) ∈ canonicalMembers members := by
      rw [← Json.obj.inj h]
      exact List.mem_append_right before List.mem_cons_self
    obtain ⟨w, -, hw⟩ := mem_canonicalMembers hmem
    exact ⟨isAbsent_of_mem_canonicalMembers hmem, w, hw⟩
  | _ => cases h

theorem item_of_canonical {before after : List Json}
    (h : .arr (before ++ i :: after) = a.canonical) :
    i.isNull = false ∧ ∃ j : Json, i = j.canonical := by
  cases a with
  | arr items =>
    have hmem : i ∈ canonicalItems items := by
      rw [← Json.arr.inj h]
      exact List.mem_append_right before List.mem_cons_self
    obtain ⟨j, hj, hnull⟩ := mem_canonicalItems hmem
    exact ⟨hnull, j, hj⟩
  | _ => cases h

theorem Removal.ne_canonical (h : Removal b c) (a : Json) : b ≠ a.canonical := by
  induction h generalizing a with
  | member absent =>
    intro h
    have hstays := (member_of_canonical h).1
    rw [absent] at hstays
    cases hstays
  | item =>
    intro h
    cases (item_of_canonical h).1
  | inMember inner ih =>
    intro h
    obtain ⟨w, hw⟩ := (member_of_canonical h).2
    exact ih w hw
  | inItem inner ih =>
    intro h
    obtain ⟨j, hj⟩ := (item_of_canonical h).2
    exact ih j hj

theorem normalItems_eq_map (items : List Json) : normalItems items = items.map normal := by
  induction items with
  | nil => rfl
  | cons i items ih => rw [normalItems, ih, List.map_cons]

theorem normalMembers_eq_map (members : List (String × Json)) :
    normalMembers members = members.map fun m => (m.1, m.2.normal) := by
  induction members with
  | nil => rfl
  | cons m members ih => rw [normalMembers, ih, List.map_cons]

theorem map_eq_self_iff {α : Type} {f : α → α} {l : List α} : l.map f = l ↔ ∀ x ∈ l, f x = x := by
  have h := List.map_inj_left (f := f) (g := id) (l := l)
  rwa [List.map_id] at h

theorem inOrder_arr : (Json.arr items).InOrder ↔ ∀ i ∈ items, i.InOrder := by
  rw [InOrder, normal, normalItems_eq_map, Json.arr.injEq]
  exact map_eq_self_iff

theorem ordered_iff : Ordered members ↔ (members.map Prod.fst).Pairwise (· < ·) :=
  List.pairwise_map.symm

theorem inOrder_obj :
    (Json.obj members).InOrder ↔ Ordered members ∧ ∀ m ∈ members, m.2.InOrder := by
  have hkeys : Ordered (normalMembers members) ↔ Ordered members := by
    rw [normalMembers_eq_map, ordered_iff, ordered_iff, List.map_map]
    rfl
  have hvalues : normalMembers members = members ↔ ∀ m ∈ members, m.2.InOrder := by
    rw [normalMembers_eq_map, map_eq_self_iff]
    exact forall₂_congr fun m _ => Prod.ext_iff.trans (and_iff_right rfl)
  rw [InOrder, normal, object, Json.obj.injEq]
  constructor
  · intro h
    have hordered : Ordered members := h ▸ ordered_sortMembers (normalMembers members)
    rw [(hkeys.mpr hordered).sortMembers_eq] at h
    exact ⟨hordered, hvalues.mp h⟩
  · rintro ⟨hordered, h⟩
    rw [(hkeys.mpr hordered).sortMembers_eq]
    exact hvalues.mpr h

theorem Removal.inOrder (h : Removal a b) (ha : a.InOrder) : b.InOrder := by
  induction h with
  | @member before after k v absent =>
    obtain ⟨hordered, hvalues⟩ := inOrder_obj.mp ha
    have hsub : (before ++ after).Sublist (before ++ (k, v) :: after) :=
      (List.sublist_cons_self _ after).append_left before
    exact inOrder_obj.mpr ⟨hordered.sublist hsub, fun m hm => hvalues m (hsub.subset hm)⟩
  | @item before after =>
    have hsub : (before ++ after).Sublist (before ++ .null :: after) :=
      (List.sublist_cons_self _ after).append_left before
    exact inOrder_arr.mpr fun i hi => inOrder_arr.mp ha i (hsub.subset hi)
  | @inMember before after k v w inner ih =>
    obtain ⟨hordered, hvalues⟩ := inOrder_obj.mp ha
    rw [ordered_iff, List.map_append, List.map_cons] at hordered
    rw [inOrder_obj, ordered_iff, List.map_append, List.map_cons]
    refine ⟨hordered, ?_⟩
    simp only [List.forall_mem_append, List.forall_mem_cons] at hvalues ⊢
    exact ⟨hvalues.1, ih hvalues.2.1, hvalues.2.2⟩
  | inItem inner ih =>
    rw [inOrder_arr, List.forall_mem_append, List.forall_mem_cons] at ha ⊢
    exact ⟨ha.1, ih ha.2.1, ha.2.2⟩

theorem equivalentInOrder_of_removals (h : ReflTransGen Removal a b) (ha : a.InOrder) :
    b.InOrder ∧ EquivalentInOrder a b := by
  induction h with
  | refl => exact ⟨ha, .refl a⟩
  | tail _ removal ih =>
    have hnext := removal.inOrder ih.1
    exact ⟨hnext, .trans _ _ _ ih.2 (.rel _ _ ⟨ih.1, hnext, removal⟩)⟩

theorem canonical_eq_iff_inOrder (ha : a.InOrder) (hb : b.InOrder) :
    a.canonical = b.canonical ↔ EquivalentInOrder a b := by
  constructor
  · intro h
    have ha := (equivalentInOrder_of_removals (removals_canonical a) ha).2
    have hb := (equivalentInOrder_of_removals (removals_canonical b) hb).2
    rw [h] at ha
    exact .trans _ _ _ ha (.symm _ _ hb)
  · exact eq_of_eqvGen fun _ _ step => step.2.2.canonical_eq

theorem isNull_unsignedZeros (j : Json) : j.unsignedZeros.isNull = j.isNull := by
  cases j <;> rfl

theorem isAbsent_unsignedZeros (j : Json) : j.unsignedZeros.isAbsent = j.isAbsent := by
  cases j with
  | arr items => cases items <;> rfl
  | _ => rfl

mutual

theorem canonical_unsignedZeros (j : Json) :
    j.unsignedZeros.canonical = j.canonical.unsignedZeros := by
  cases j with
  | arr items =>
    rw [unsignedZeros, canonical, canonical, unsignedZeros, canonicalItems_unsignedZeros]
  | obj members =>
    rw [unsignedZeros, canonical, canonical, unsignedZeros, canonicalMembers_unsignedZeros]
  | _ => rfl

theorem canonicalItems_unsignedZeros (items : List Json) :
    canonicalItems (unsignedZerosItems items) = unsignedZerosItems (canonicalItems items) := by
  match items with
  | [] => rfl
  | j :: rest =>
    rw [unsignedZerosItems, canonicalItems, canonicalItems, isNull_unsignedZeros,
      canonical_unsignedZeros j, canonicalItems_unsignedZeros rest]
    split <;> rfl

theorem canonicalMembers_unsignedZeros (members : List (String × Json)) :
    canonicalMembers (unsignedZerosMembers members) =
      unsignedZerosMembers (canonicalMembers members) := by
  match members with
  | [] => rfl
  | (k, v) :: rest =>
    rw [unsignedZerosMembers, canonicalMembers, canonicalMembers, canonical_unsignedZeros v,
      isAbsent_unsignedZeros, canonicalMembers_unsignedZeros rest]
    split <;> rfl

end

theorem canonical_agrees_iff_inOrder (ha : a.InOrder) (hb : b.InOrder) :
    a.canonical.agrees b.canonical = true ↔ AlikeInOrder a b := by
  constructor
  · intro h
    obtain ⟨ha', hra⟩ := equivalentInOrder_of_removals (removals_canonical a) ha
    obtain ⟨hb', hrb⟩ := equivalentInOrder_of_removals (removals_canonical b) hb
    have halike : ∀ x y, EquivalentInOrder x y → AlikeInOrder x y :=
      EqvGen.mono fun _ _ step => ⟨step.1, step.2.1, .inl step.2.2⟩
    have hmiddle : AlikeInOrder a.canonical b.canonical := .rel _ _ ⟨ha', hb', .inr h⟩
    exact .trans _ _ _ (halike _ _ hra) (.trans _ _ _ hmiddle (.symm _ _ (halike _ _ hrb)))
  · intro h
    have hkeeps : ∀ x y, x.InOrder ∧ y.InOrder ∧ (Removal x y ∨ x.agrees y = true) →
        x.canonical.unsignedZeros = y.canonical.unsignedZeros := by
      rintro x y ⟨-, -, removal | hagrees⟩
      · rw [removal.canonical_eq]
      · rw [← canonical_unsignedZeros, ← canonical_unsignedZeros, (agrees_iff x y).mp hagrees]
    rw [agrees_iff]
    exact eq_of_eqvGen (f := fun x => x.canonical.unsignedZeros) hkeeps h

/-- The canonical form is a normal form of removals: removals lead to it and none leads on, and two
values have one canonical form just when removals and insertions turn one into the other. For values
in normal order the values between them may be so too, and the two zeros may count as one. -/
theorem canonical_normalForm (a b : Json) :
    Equivalent a.canonical a ∧ (∀ c, ¬Removal a.canonical c) ∧
      a.canonical.canonical = a.canonical ∧
      (a.canonical = b.canonical ↔ Equivalent a b) ∧
      (a.InOrder → b.InOrder → a.canonical.InOrder ∧
        (a.canonical = b.canonical ↔ EquivalentInOrder a b) ∧
        (a.canonical.agrees b.canonical = true ↔ AlikeInOrder a b)) := by
  have hremovals := removals_canonical a
  refine ⟨.symm _ _ (equivalent_of_removals hremovals), ?_, canonical_canonical a,
    canonical_eq_iff, ?_⟩
  · intro c removal
    exact removal.ne_canonical a rfl
  · intro ha hb
    exact ⟨(equivalentInOrder_of_removals hremovals ha).1, canonical_eq_iff_inOrder ha hb,
      canonical_agrees_iff_inOrder ha hb⟩

/-- A member whose list holds null alone goes once the null is gone; the object that is left empty
stays. -/
theorem nested_equivalentInOrder :
    EquivalentInOrder (.obj [("k", .obj [("l", .arr [.null])])]) (.obj [("k", .obj [])]) :=
  ((canonical_normalForm (.obj [("k", .obj [("l", .arr [.null])])]) (.obj [("k", .obj [])])).2.2.2.2
    rfl rfl).2.1.mp rfl

end Json
end ModelGraph
