import ModelGraph.Document
import ModelGraph.Json.Printer
import ModelGraph.Json.Reader
import Mathlib.Data.List.Forall2
import Mathlib.Data.Option.Basic

namespace ModelGraph

namespace Json

def SameText (a b : Json) : Prop := a.compact = b.compact

variable {a b c : Json} {as bs : List Json} {r s : List (String × Json)}

theorem sameText_iff : a.SameText b ↔ a.chars = b.chars := String.ofList_inj

theorem SameText.refl (a : Json) : a.SameText a := rfl

theorem SameText.symm (h : a.SameText b) : b.SameText a := Eq.symm h

theorem itemChars_cons (a : Json) (as : List Json) :
    itemChars (a :: as) = a.chars ++ if as.isEmpty then [] else ',' :: itemChars as := by
  cases as with
  | nil => simp [itemChars]
  | cons b as => rfl

theorem memberChars_cons (m : String × Json) (r : List (String × Json)) :
    memberChars (m :: r) =
      quoted m.1 ++ ':' :: (m.2.chars ++ if r.isEmpty then [] else ',' :: memberChars r) := by
  cases r with
  | nil => simp [memberChars]
  | cons n r => rfl

theorem SameText.arr (h : List.Forall₂ SameText as bs) : (arr as).SameText (arr bs) := by
  have hitems : itemChars as = itemChars bs := by
    induction h with
    | nil => rfl
    | @cons a b as bs hab hrest ih =>
      have hempty : as.isEmpty = bs.isEmpty := by
        cases hrest <;> rfl
      rw [itemChars_cons, itemChars_cons, sameText_iff.mp hab, hempty, ih]
  rw [sameText_iff, chars, chars, hitems]

def SameMember (m n : String × Json) : Prop := m.1 = n.1 ∧ m.2.SameText n.2

theorem SameText.obj (h : List.Forall₂ SameMember r s) : (obj r).SameText (obj s) := by
  have hmembers : memberChars r = memberChars s := by
    induction h with
    | nil => rfl
    | @cons m n r s hmn hrest ih =>
      have hempty : r.isEmpty = s.isEmpty := by
        cases hrest <;> rfl
      rw [memberChars_cons, memberChars_cons, hmn.1, sameText_iff.mp hmn.2, hempty, ih]
  rw [sameText_iff, chars, chars, hmembers]

/-- Where a scan stands: under so many open brackets, in a text, or behind a backslash in one. -/
inductive Scan where
  | value (depth : Nat)
  | text (depth : Nat)
  | escape (depth : Nat)

/-- Where a scan stands after a character; none behind the end of a value. -/
def Scan.step : Scan → Char → Option Scan
  | .text depth, c =>
    if c = '"' then some (.value depth) else if c = '\\' then some (.escape depth)
    else some (.text depth)
  | .escape depth, _ => some (.text depth)
  | .value depth, c =>
    if c = '"' then some (.text depth)
    else if c = '[' ∨ c = '{' then some (.value (depth + 1))
    else if c = ']' ∨ c = '}' then if depth = 0 then none else some (.value (depth - 1))
    else if c = ',' ∧ depth = 0 then none
    else some (.value depth)

def skip : Scan → List Char → List Char
  | _, [] => []
  | scan, c :: rest =>
    match scan.step c with
    | some scan => skip scan rest
    | none => c :: rest

/-- The characters that a value can't pass without opening something. -/
def IsMark (c : Char) : Prop := c ∈ ['"', '[', '{', ']', '}', ',']

/-- What may follow a value: nothing, or something that closes or separates. -/
def Stops (x : List Char) : Prop := skip (.value 0) x = x

theorem stops_cons {ch : Char} {x : List Char} (h : ch ∈ [']', '}', ',']) : Stops (ch :: x) := by
  simp only [List.mem_cons, List.not_mem_nil, or_false] at h
  rcases h with rfl | rfl | rfl <;> rfl

variable {depth : Nat} {x y : List Char}

theorem skip_plain {cs : List Char} (h : ∀ ch ∈ cs, ¬IsMark ch) :
    skip (.value depth) (cs ++ x) = skip (.value depth) x := by
  induction cs with
  | nil => rfl
  | cons ch cs ih =>
    have hch := h ch List.mem_cons_self
    simp only [IsMark, List.mem_cons, List.not_mem_nil, or_false, not_or] at hch
    obtain ⟨hquote, hopen, hopen', hclose, hclose', hcomma⟩ := hch
    have hstep : (Scan.value depth).step ch = some (.value depth) := by
      simp [Scan.step, hquote, hopen, hopen', hclose, hclose', hcomma]
    rw [List.cons_append, skip, hstep]
    exact ih fun ch hm => h ch (List.mem_cons_of_mem _ hm)

theorem hexDigit_ne_quote (n : Nat) : hexDigit n ≠ '"' ∧ hexDigit n ≠ '\\' := by
  have h : ∀ k : Fin 16, Nat.digitChar k ≠ '"' ∧ Nat.digitChar k ≠ '\\' := by decide
  exact h ⟨n % 16, Nat.mod_lt n (by decide)⟩

theorem skip_escaped (ch : Char) :
    skip (.text depth) (escaped ch ++ x) = skip (.text depth) x := by
  rw [escaped]
  by_cases hquote : ch = '"'
  · rw [if_pos hquote]; rfl
  rw [if_neg hquote]
  by_cases hslash : ch = '\\'
  · rw [if_pos hslash]; rfl
  rw [if_neg hslash]
  by_cases hline : ch = '\n'
  · rw [if_pos hline]; rfl
  rw [if_neg hline]
  by_cases hreturn : ch = '\r'
  · rw [if_pos hreturn]; rfl
  rw [if_neg hreturn]
  by_cases htab : ch = '\t'
  · rw [if_pos htab]; rfl
  rw [if_neg htab]
  by_cases hback : ch.toNat = 8
  · rw [if_pos hback]; rfl
  rw [if_neg hback]
  by_cases hfeed : ch.toNat = 12
  · rw [if_pos hfeed]; rfl
  rw [if_neg hfeed]
  by_cases hlow : ch.toNat < 0x20
  · rw [if_pos hlow]
    simp [skip, Scan.step, hexDigit_ne_quote]
  · rw [if_neg hlow]
    simp [skip, Scan.step, hquote, hslash]

theorem skip_quoted (t : String) :
    skip (.value depth) (quoted t ++ x) = skip (.value depth) x := by
  have hinner : ∀ cs : List Char,
      skip (.text depth) (cs.flatMap escaped ++ '"' :: x) = skip (.value depth) x := by
    intro cs
    induction cs with
    | nil => rfl
    | cons ch cs ih => rw [List.flatMap_cons, List.append_assoc, skip_escaped, ih]
  rw [quoted, List.cons_append, List.append_assoc]
  exact hinner t.toList

def IsNumeric (c : Char) : Prop := c.isDigit = true ∨ c ∈ ['-', '+', '.', 'e']

theorem IsNumeric.not_isMark {ch : Char} (h : IsNumeric ch) : ¬IsMark ch := by
  intro hm
  simp only [IsMark, IsNumeric, List.mem_cons, List.not_mem_nil, or_false] at hm h
  rcases hm with rfl | rfl | rfl | rfl | rfl | rfl <;> revert h <;> decide

theorem isNumeric_toDigits (n : Nat) : ∀ ch ∈ Nat.toDigits 10 n, IsNumeric ch :=
  fun _ hm => .inl (Nat.isDigit_of_mem_toDigits (by decide) (by decide) hm)

theorem isNumeric_zeros (n : Nat) : ∀ ch ∈ List.replicate n '0', IsNumeric ch := by
  intro ch hm
  rw [List.eq_of_mem_replicate hm]
  exact .inl rfl

theorem isNumeric_int (n : Int) : ∀ ch ∈ intChars n, IsNumeric ch := by
  intro ch hm
  rw [intChars] at hm
  split at hm
  · cases List.mem_cons.mp hm with
    | inl he => rw [he]; exact .inr (by decide)
    | inr hm => exact isNumeric_toDigits _ ch hm
  · exact isNumeric_toDigits _ ch hm

theorem isNumeric_power (e : Int) :
    ∀ ch ∈ (if e < 0 then ['e', '-'] else ['e', '+']) ++ Nat.toDigits 10 e.natAbs,
      IsNumeric ch := by
  intro ch hm
  rcases List.mem_append.mp hm with hm | hm
  · right
    split at hm <;> simp at hm ⊢ <;> tauto
  · exact isNumeric_toDigits _ ch hm

theorem isNumeric_scientific {digits power : List Char} (hd : ∀ ch ∈ digits, IsNumeric ch)
    (hp : ∀ ch ∈ power, IsNumeric ch) :
    ∀ ch ∈ (match digits with
      | [] => power
      | [c] => c :: power
      | c :: more => c :: '.' :: (more ++ power)), IsNumeric ch := by
  match digits with
  | [] => exact hp
  | [c] =>
    exact List.forall_mem_cons.mpr ⟨hd c List.mem_cons_self, hp⟩
  | c :: c' :: more =>
    have hmore : ∀ ch ∈ c' :: more ++ power, IsNumeric ch :=
      List.forall_mem_append.mpr ⟨fun ch hm => hd ch (List.mem_cons_of_mem _ hm), hp⟩
    exact List.forall_mem_cons.mpr ⟨hd c List.mem_cons_self,
      List.forall_mem_cons.mpr ⟨.inr (by decide), hmore⟩⟩

theorem isNumeric_double (d : Double) : ∀ ch ∈ d.chars, IsNumeric ch := by
  have hdigits : ∀ ch ∈ d.shortest.digitChars, IsNumeric ch := isNumeric_toDigits _
  have hmark : ∀ {ch : Char}, ch ∈ ['-', '+', '.', 'e'] → IsNumeric ch := fun h => .inr h
  have hzero : IsNumeric '0' := .inl rfl
  have hsign : ∀ ch ∈ if d.isNegative then ['-'] else [], IsNumeric ch := by
    intro ch hm
    split at hm
    · rw [List.mem_singleton.mp hm]; exact hmark (by decide)
    · cases hm
  intro ch hm
  rw [Double.chars] at hm
  rcases List.mem_append.mp hm with hm | hm
  · exact hsign ch hm
  split at hm
  · split at hm
    · simp only [List.mem_append, List.mem_cons, List.not_mem_nil, or_false] at hm
      rcases hm with (hm | hm) | rfl | rfl
      · exact hdigits ch hm
      · exact isNumeric_zeros _ ch hm
      · exact hmark (by decide)
      · exact hzero
    split at hm
    · simp only [List.mem_append, List.mem_cons] at hm
      rcases hm with hm | rfl | hm
      · exact hdigits ch (List.mem_of_mem_take hm)
      · exact hmark (by decide)
      · exact hdigits ch (List.mem_of_mem_drop hm)
    · simp only [List.mem_append, List.mem_cons] at hm
      rcases hm with rfl | rfl | hm | hm
      · exact hzero
      · exact hmark (by decide)
      · exact isNumeric_zeros _ ch hm
      · exact hdigits ch hm
  · exact isNumeric_scientific hdigits (isNumeric_power _) ch hm

theorem isNumeric_number (n : JsonNumber) : ∀ ch ∈ n.chars, IsNumeric ch := by
  cases n with
  | int n => exact isNumeric_int n
  | double d => exact isNumeric_double d

mutual

theorem skip_chars (j : Json) (depth : Nat) (x : List Char) :
    skip (.value depth) (j.chars ++ x) = skip (.value depth) x := by
  cases j with
  | null => rfl
  | bool b => cases b <;> rfl
  | num n => exact skip_plain fun ch hm => (isNumeric_number n ch hm).not_isMark
  | str s => exact skip_quoted s
  | arr items =>
    rw [chars, List.cons_append, List.append_assoc]
    exact skip_itemChars items depth (']' :: x)
  | obj members =>
    rw [chars, List.cons_append, List.append_assoc]
    exact skip_memberChars members depth ('}' :: x)

theorem skip_itemChars (items : List Json) (depth : Nat) (x : List Char) :
    skip (.value (depth + 1)) (itemChars items ++ x) = skip (.value (depth + 1)) x := by
  cases items with
  | nil => rfl
  | cons j rest =>
    rw [itemChars_cons, List.append_assoc, skip_chars j]
    cases rest with
    | nil => rfl
    | cons k rest => exact skip_itemChars (k :: rest) depth x

theorem skip_memberChars (members : List (String × Json)) (depth : Nat) (x : List Char) :
    skip (.value (depth + 1)) (memberChars members ++ x) = skip (.value (depth + 1)) x := by
  match members with
  | [] => rfl
  | (k, v) :: rest =>
    rw [memberChars_cons, List.append_assoc, skip_quoted, List.cons_append, List.append_assoc]
    have hvalue := skip_chars v (depth + 1)
      ((if rest.isEmpty then [] else ',' :: memberChars rest) ++ x)
    refine Eq.trans hvalue ?_
    match rest with
    | [] => rfl
    | m :: rest => exact skip_memberChars (m :: rest) depth x

end

theorem chars_append_inj (hx : Stops x) (hy : Stops y) (h : a.chars ++ x = b.chars ++ y) :
    a.SameText b ∧ x = y := by
  have hxy : x = y := by
    have hskip := congrArg (skip (.value 0)) h
    rwa [skip_chars, skip_chars, hx, hy] at hskip
  rw [hxy] at h
  exact ⟨sameText_iff.mpr (List.append_cancel_right h), hxy⟩

theorem unit?_low : ∀ n < 32, unit? '0' '0' (hexDigit (n / 16)) (hexDigit n) = some n := by decide

theorem string_escaped (ch : Char) :
    string (escaped ch ++ x) = (string x).map fun r => (ch :: r.1, r.2) := by
  rw [escaped]
  by_cases hquote : ch = '"'
  · rw [if_pos hquote, hquote]; rfl
  rw [if_neg hquote]
  by_cases hslash : ch = '\\'
  · rw [if_pos hslash, hslash]; rfl
  rw [if_neg hslash]
  by_cases hline : ch = '\n'
  · rw [if_pos hline, hline]; rfl
  rw [if_neg hline]
  by_cases hreturn : ch = '\r'
  · rw [if_pos hreturn, hreturn]; rfl
  rw [if_neg hreturn]
  by_cases htab : ch = '\t'
  · rw [if_pos htab, htab]; rfl
  rw [if_neg htab]
  by_cases hback : ch.toNat = 8
  · rw [if_pos hback, ← Char.ofNat_toNat ch, hback]; rfl
  rw [if_neg hback]
  by_cases hfeed : ch.toNat = 12
  · rw [if_pos hfeed, ← Char.ofNat_toNat ch, hfeed]; rfl
  rw [if_neg hfeed]
  by_cases hlow : ch.toNat < 0x20
  · have hhigh : isHighSurrogate ch.toNat = false := by
      simp only [isHighSurrogate, Bool.and_eq_false_iff, decide_eq_false_iff_not]
      omega
    have hpair : isLowSurrogate ch.toNat = false := by
      simp only [isLowSurrogate, Bool.and_eq_false_iff, decide_eq_false_iff_not]
      omega
    rw [if_pos hlow]
    simp [string, unit?_low _ hlow, hhigh, hpair, Char.ofNat_toNat]
  · rw [if_neg hlow]
    simp [string, hslash, hlow]

theorem string_quoted (t : String) :
    string (t.toList.flatMap escaped ++ '"' :: x) = some (t.toList, x) := by
  induction t.toList with
  | nil => rfl
  | cons ch cs ih => rw [List.flatMap_cons, List.append_assoc, string_escaped, ih]; rfl

theorem quoted_append_inj {s t : String} (h : quoted s ++ x = quoted t ++ y) : s = t ∧ x = y := by
  simp only [quoted, List.cons_append, List.append_assoc, List.nil_append, List.cons.injEq,
    true_and] at h
  have hread := congrArg string h
  rw [string_quoted, string_quoted, Option.some.injEq, Prod.mk.injEq] at hread
  exact ⟨String.toList_inj.mp hread.1, hread.2⟩

theorem stops_memberChars (r : List (String × Json)) :
    Stops ((if r.isEmpty then [] else ',' :: memberChars r) ++ '}' :: x) := by
  cases r with
  | nil => exact stops_cons (by decide)
  | cons m r => exact stops_cons (by decide)

theorem memberChars_inj (h : memberChars r ++ '}' :: x = memberChars s ++ '}' :: y) :
    List.Forall₂ SameMember r s := by
  induction r generalizing s with
  | nil =>
    cases s with
    | nil => exact .nil
    | cons n s =>
      rw [memberChars_cons] at h
      exact absurd h (by simp [memberChars, quoted])
  | cons m r ih =>
    cases s with
    | nil =>
      rw [memberChars_cons] at h
      exact absurd h (by simp [memberChars, quoted])
    | cons n s =>
      rw [memberChars_cons, memberChars_cons, List.append_assoc, List.append_assoc] at h
      obtain ⟨hkey, h⟩ := quoted_append_inj h
      rw [List.cons_append, List.cons_append, List.append_assoc, List.append_assoc] at h
      obtain ⟨hvalue, h⟩ :=
        chars_append_inj (stops_memberChars r) (stops_memberChars s) (List.cons.inj h).2
      refine .cons ⟨hkey, hvalue⟩ ?_
      cases r with
      | nil =>
        cases s with
        | nil => exact .nil
        | cons n' s => exact absurd h (by simp)
      | cons m' r =>
        cases s with
        | nil => exact absurd h (by simp)
        | cons n' s => exact ih (List.cons.inj h).2

theorem sameText_obj_iff : (obj r).SameText (obj s) ↔ List.Forall₂ SameMember r s := by
  constructor
  · intro h
    rw [sameText_iff, chars, chars] at h
    exact memberChars_inj (x := []) (y := []) (by simpa using h)
  · exact SameText.obj

theorem eq_null_of_chars {j : Json} (h : "null".toList = j.chars) : j = null := by
  cases j with
  | null => rfl
  | bool b => cases b <;> cases h
  | num n =>
    have hmem : 'n' ∈ n.chars := by
      rw [chars] at h
      rw [← h]
      exact List.mem_cons_self
    exact absurd (isNumeric_number n 'n' hmem) (by rintro (h | h) <;> revert h <;> decide)
  | str s => cases h
  | arr items => cases h
  | obj members => cases h

theorem SameText.isNull (h : a.SameText b) : a.isNull = b.isNull := by
  have hnull : ∀ {a b : Json}, a.SameText b → a = null → b = null := by
    intro a b h ha
    rw [ha] at h
    exact eq_null_of_chars (sameText_iff.mp h)
  by_cases ha : a = null
  · rw [ha, hnull h ha]
  · have hb : b ≠ null := fun hb => ha (hnull h.symm hb)
    cases a <;> cases b <;> simp_all [Json.isNull]

theorem SameMember.refl (m : String × Json) : SameMember m m := ⟨rfl, rfl⟩

theorem SameMember.insertMember {k : String} (hab : a.SameText b) (h : List.Forall₂ SameMember r s) :
    List.Forall₂ SameMember (insertMember k a r) (insertMember k b s) := by
  induction h with
  | nil => exact .cons ⟨rfl, hab⟩ .nil
  | @cons m n r s hmn hrest ih =>
    obtain ⟨l, v⟩ := m
    obtain ⟨l', w⟩ := n
    obtain ⟨rfl, hvw⟩ := hmn
    rw [Json.insertMember, Json.insertMember]
    by_cases hlt : k < l
    · rw [if_pos hlt, if_pos hlt]
      exact .cons ⟨rfl, hab⟩ (.cons ⟨rfl, hvw⟩ hrest)
    rw [if_neg hlt, if_neg hlt]
    by_cases heq : k = l
    · rw [if_pos heq, if_pos heq]
      exact .cons ⟨rfl, hab⟩ hrest
    · rw [if_neg heq, if_neg heq]
      exact .cons ⟨rfl, hvw⟩ ih

theorem SameMember.sortMembers (h : List.Forall₂ SameMember r s) :
    List.Forall₂ SameMember (sortMembers r) (sortMembers s) := by
  have hfold : ∀ {t u : List (String × Json)}, List.Forall₂ SameMember t u →
      List.Forall₂ SameMember (r.foldl (fun sorted m => Json.insertMember m.1 m.2 sorted) t)
        (s.foldl (fun sorted m => Json.insertMember m.1 m.2 sorted) u) := by
    induction h with
    | nil => exact id
    | @cons m n r s hmn _ ih =>
      intro t u htu
      rw [List.foldl_cons, List.foldl_cons, hmn.1]
      exact ih (SameMember.insertMember hmn.2 htu)
  exact hfold .nil

end Json

namespace Record

open Json

abbrev SameText (r s : Record) : Prop := List.Forall₂ SameMember r s

variable {r s r' s' : Record} {name : String} {a b : Json} {as bs : List Json}

theorem SameText.refl (r : Record) : r.SameText r := List.forall₂_same.mpr fun m _ => .refl m

theorem SameText.append (h : r.SameText s) (h' : r'.SameText s') :
    (r ++ r').SameText (s ++ s') :=
  List.rel_append h h'

theorem SameText.field (name : String) (h : a.SameText b) :
    (field name a).SameText (field name b) :=
  .cons ⟨rfl, h⟩ .nil

theorem SameText.optField (name : String) {o p : Option Json} (h : Option.Rel Json.SameText o p) :
    (optField name o).SameText (optField name p) := by
  cases h with
  | none => exact .nil
  | some h => exact .field name h

theorem SameText.listField (name : String) (h : List.Forall₂ Json.SameText as bs) :
    (listField name as).SameText (listField name bs) := by
  cases h with
  | nil => exact .nil
  | cons hab hrest => exact .field name (.arr (.cons hab hrest))

theorem SameText.valueField (name : String) (h : a.SameText b) :
    (valueField name a).SameText (valueField name b) := by
  rw [Record.valueField, Record.valueField, h.isNull]
  split
  · exact .nil
  · exact .field name h

end Record

theorem Json.SameText.record {r s : Record} (h : r.SameText s) : r.toJson.SameText s.toJson :=
  .obj (SameMember.sortMembers h)

theorem Json.SameText.tagged {r s : Record} (tag : String) (h : r.SameText s) :
    (Record.tagged tag r).SameText (Record.tagged tag s) :=
  .record (.cons (.refl _) h)

end ModelGraph
