import ModelGraph.Proofs.Records
import ModelGraph.Store.ColumnType

namespace ModelGraph

namespace Text

variable {sep : Char} {s t : List Char}

theorem trim_of_not_blank (h : ∀ c ∈ s, isBlank c = false) : trim s = s := by
  have hstart : ∀ u : List Char, (∀ c ∈ u, isBlank c = false) → u.dropWhile isBlank = u := by
    intro u hu
    cases u with
    | nil => rfl
    | cons c u => rw [List.dropWhile_cons_of_neg (by simp [hu c List.mem_cons_self])]
  rw [trim, trimEnd, trimStart, hstart s h, hstart s.reverse, List.reverse_reverse]
  intro c hc
  exact h c (List.mem_reverse.mp hc)

theorem splitAt_of_not_mem (h : sep ∉ s) : splitAt sep s = [s] := by
  induction s with
  | nil => rfl
  | cons c s ih =>
    have hc : ¬c = sep := fun e => h (e ▸ List.mem_cons_self)
    rw [splitAt, if_neg hc, ih fun hs => h (List.mem_cons_of_mem _ hs)]

theorem splitAt_append (h : sep ∉ s) : splitAt sep (s ++ sep :: t) = s :: splitAt sep t := by
  induction s with
  | nil => rw [List.nil_append, splitAt, if_pos rfl]
  | cons c s ih =>
    have hc : ¬c = sep := fun e => h (e ▸ List.mem_cons_self)
    rw [List.cons_append, splitAt, if_neg hc, ih fun hs => h (List.mem_cons_of_mem _ hs)]

theorem isBlank_digit {c : Char} (h : c.isDigit = true) : isBlank c = false := by
  simp only [Char.isDigit, Bool.and_eq_true, decide_eq_true_eq] at h
  have hl : 48 ≤ c.toNat := UInt32.le_iff_toNat_le.mp h.1
  have hu : c.toNat ≤ 57 := UInt32.le_iff_toNat_le.mp h.2
  simp only [isBlank]
  simp
  omega

end Text

namespace ColumnType

open Text

def digits (n : Nat) : List Char := Nat.toDigits 10 n

theorem toList_toString (n : Nat) : (toString n).toList = digits n := String.toList_ofList

theorem isDigit_of_mem_digits {n : Nat} {c : Char} (h : c ∈ digits n) : c.isDigit = true :=
  Nat.isDigit_of_mem_toDigits (by decide) (by decide) h

theorem not_mem_digits {n : Nat} {c : Char} (h : c.isDigit = false) : c ∉ digits n := by
  intro hc
  rw [isDigit_of_mem_digits hc] at h
  cases h

theorem number?_digits {n : Nat} (h : n < Nat.pow 2 64) : number? (digits n) = some n := by
  have hfold : (digits n).foldl (fun n c => n * 10 + (c.toNat - 48)) 0 = n := by
    have hd := Nat.ofDigitChars_toDigits (b := 10) (n := n) (by decide) (by decide)
    rw [Nat.ofDigitChars] at hd
    simp only [Nat.mul_comm] at hd
    exact hd
  have hall : (digits n).all Char.isDigit = true := by
    apply List.all_eq_true.mpr
    exact fun c hc => isDigit_of_mem_digits hc
  have hne : (digits n).isEmpty = false := by
    cases hd : digits n with
    | nil => exact absurd hd Nat.toDigits_ne_nil
    | cons c rest => rfl
  have hplus : ∀ rest, digits n ≠ '+' :: rest := by
    intro rest hd
    exact not_mem_digits (c := '+') (n := n) (by decide) (hd ▸ List.mem_cons_self)
  rw [number?]
  · simp [hne, hall, hfold, h]
  · exact hplus

theorem lt_of_number? {s : List Char} {n : Nat} (h : number? s = some n) : n < Nat.pow 2 64 := by
  simp only [number?, Option.ite_none_left_eq_some, Option.ite_none_right_eq_some] at h
  obtain ⟨-, hlt, he⟩ := h
  exact Option.some.inj he ▸ hlt

/-- The shapes that texts of types have: a name without parenthesis, alone or with a size or with a
precision and a scale. -/
structure IsStandard (t : ColumnType) : Prop where
  name : '(' ∉ t.name.toList
  bounded : ∀ n, t.size = some n ∨ t.precision = some n ∨ t.scale = some n → n < Nat.pow 2 64
  shape : (t.precision = none ∧ t.scale = none) ∨
    (t.size = none ∧ t.precision.isSome ∧ t.scale.isSome)

theorem not_mem_takeWhile {s : List Char} : '(' ∉ s.takeWhile (· ≠ '(') := by
  induction s with
  | nil => exact List.not_mem_nil
  | cons c s ih =>
    by_cases hc : c = '('
    · rw [List.takeWhile_cons_of_neg (by simp [hc])]
      exact List.not_mem_nil
    · rw [List.takeWhile_cons_of_pos (by simp [hc])]
      intro hm
      cases List.mem_cons.mp hm with
      | inl he => exact hc he.symm
      | inr hm => exact ih hm

theorem dropWhile_eq_nil {s : List Char} : s.dropWhile (· ≠ '(') = [] ↔ '(' ∉ s := by
  induction s with
  | nil => simp
  | cons c s ih =>
    by_cases hc : c = '('
    · simp [hc]
    · rw [List.dropWhile_cons_of_pos (by simp [hc]), ih, List.mem_cons, not_or]
      exact ⟨fun h => ⟨fun e => hc e.symm, h⟩, fun h => h.2⟩

theorem cut_append {s : List Char} (rest : List Char) (h : '(' ∉ s) :
    (s ++ '(' :: rest).dropWhile (· ≠ '(') = '(' :: rest ∧
      (s ++ '(' :: rest).takeWhile (· ≠ '(') = s := by
  induction s with
  | nil => simp
  | cons c s ih =>
    have hc : c ≠ '(' := fun e => h (e ▸ List.mem_cons_self)
    obtain ⟨hd, ht⟩ := ih fun hm => h (List.mem_cons_of_mem _ hm)
    rw [List.cons_append, List.dropWhile_cons_of_pos (by simp [hc]),
      List.takeWhile_cons_of_pos (by simp [hc]), hd, ht]
    exact ⟨rfl, rfl⟩

theorem ofText?_append {name : String} {arguments : String} (h : '(' ∉ name.toList) :
    ofText? (name ++ "(" ++ arguments ++ ")") = ofArguments? name arguments.toList := by
  have hl : (name ++ "(" ++ arguments ++ ")").toList =
      name.toList ++ '(' :: (arguments.toList ++ [')']) := by
    simp [String.toList_append]
  obtain ⟨hd, ht⟩ := cut_append (arguments.toList ++ [')']) h
  rw [ofText?]
  simp only [hl, hd, ht, List.reverse_append, List.reverse_singleton, List.singleton_append,
    List.reverse_reverse, String.ofList_toList]

theorem number?_trim_digits {n : Nat} (h : n < Nat.pow 2 64) :
    number? (trim (digits n)) = some n := by
  rw [trim_of_not_blank fun c hc => isBlank_digit (isDigit_of_mem_digits hc), number?_digits h]

theorem ofText?_text {t : ColumnType} (h : t.IsStandard) : ofText? t.text = some t := by
  obtain ⟨name, size, precision, scale⟩ := t
  obtain ⟨hname, hb, hshape⟩ := h
  simp only at hname hb hshape
  rcases hshape with ⟨rfl, rfl⟩ | ⟨rfl, hp, hs⟩
  · cases size with
    | none => simp only [text, ofText?, dropWhile_eq_nil.mpr hname]
    | some n =>
      simp only [text]
      rw [ofText?_append hname, toList_toString, ofArguments?,
        splitAt_of_not_mem (not_mem_digits (by decide))]
      simp [number?_trim_digits (hb n (by simp))]
  · obtain ⟨p, rfl⟩ := Option.isSome_iff_exists.mp hp
    obtain ⟨s, rfl⟩ := Option.isSome_iff_exists.mp hs
    have hl : name ++ "(" ++ toString p ++ "," ++ toString s ++ ")" =
        name ++ "(" ++ (toString p ++ "," ++ toString s) ++ ")" := by
      simp [String.append_assoc]
    have ha : (toString p ++ "," ++ toString s).toList = digits p ++ ',' :: digits s := by
      rw [String.toList_append, String.toList_append, toList_toString, toList_toString]
      simp
    simp only [text]
    rw [hl, ofText?_append hname, ha, ofArguments?, splitAt_append (not_mem_digits (by decide)),
      splitAt_of_not_mem (not_mem_digits (by decide))]
    simp [number?_trim_digits (hb p (by simp)), number?_trim_digits (hb s (by simp))]

theorem isStandard_of_ofArguments? {name : String} {arguments : List Char} {t : ColumnType}
    (hname : '(' ∉ name.toList) (h : ofArguments? name arguments = some t) : t.IsStandard := by
  obtain ⟨numbers, hn, h⟩ := bind_eq_some.mp h
  have hb : ∀ n ∈ numbers, n < Nat.pow 2 64 := by
    intro n hm
    obtain ⟨a, -, ha⟩ := mapM_eq_some hn n hm
    exact lt_of_number? ha
  match numbers, h, hb with
  | [size], h, hb =>
    cases h
    exact ⟨hname, by simpa using hb, .inl ⟨rfl, rfl⟩⟩
  | [precision, scale], h, hb =>
    cases h
    refine ⟨hname, ?_, .inr ⟨rfl, rfl, rfl⟩⟩
    intro n hn
    exact hb n (by simpa [eq_comm] using hn)

theorem isStandard_of_ofText? {s : String} {t : ColumnType} (h : ofText? s = some t) :
    t.IsStandard := by
  simp only [ofText?] at h
  cases hd : s.toList.dropWhile (· ≠ '(') with
  | nil =>
    rw [hd] at h
    cases h
    exact ⟨dropWhile_eq_nil.mp hd, by simp, .inl ⟨rfl, rfl⟩⟩
  | cons c rest =>
    rw [hd] at h
    simp only at h
    split at h
    · apply isStandard_of_ofArguments? _ h
      rw [String.toList_ofList]
      exact not_mem_takeWhile
    · cases h

theorem ofText?_text_iff {t : ColumnType} : ofText? t.text = some t ↔ t.IsStandard :=
  ⟨isStandard_of_ofText?, ofText?_text⟩

/-- The arguments are unsigned numbers within sixty-four bits, as documents give them. -/
def IsBounded (t : ColumnType) : Prop :=
  ∀ n, t.size = some n ∨ t.precision = some n ∨ t.scale = some n → n < Nat.pow 2 64

/-- A type is read from its own text exactly if its name has no parenthesis and it has no argument,
only a size, or exactly a precision and a scale. What is read from any text at all is read from its
own text again, so that one reading brings a text to its final form. -/
theorem text_faithful :
    (∀ t : ColumnType, t.IsBounded → (ofText? t.text = some t ↔ '(' ∉ t.name.toList ∧
      ((t.size = none ∧ t.precision = none ∧ t.scale = none) ∨
        (t.size.isSome = true ∧ t.precision = none ∧ t.scale = none) ∨
        (t.size = none ∧ t.precision.isSome = true ∧ t.scale.isSome = true)))) ∧
    ∀ (s : String) (t : ColumnType), ofText? s = some t →
      t.IsBounded ∧ ofText? t.text = some t := by
  constructor
  · intro t hb
    rw [ofText?_text_iff]
    constructor
    · rintro ⟨hname, -, ⟨hp, hs⟩ | hshape⟩
      · cases hsize : t.size with
        | none => exact ⟨hname, .inl ⟨rfl, hp, hs⟩⟩
        | some n => exact ⟨hname, .inr (.inl ⟨rfl, hp, hs⟩)⟩
      · exact ⟨hname, .inr (.inr hshape)⟩
    · rintro ⟨hname, ⟨-, hp, hs⟩ | ⟨-, hp, hs⟩ | hshape⟩
      · exact ⟨hname, hb, .inl ⟨hp, hs⟩⟩
      · exact ⟨hname, hb, .inl ⟨hp, hs⟩⟩
      · exact ⟨hname, hb, .inr hshape⟩
  · intro s t ht
    have hstandard := isStandard_of_ofText? ht
    exact ⟨hstandard.bounded, ofText?_text hstandard⟩

/-- The greatest arguments there are, and a text that is not in its final form. -/
theorem text_faithful_decimal :
    ofText? (text ⟨"Decimal", none, some 18446744073709551615, some 0⟩) =
        some ⟨"Decimal", none, some 18446744073709551615, some 0⟩ ∧
      ofText? (text ⟨"Decimal", none, some 10, none⟩) ≠ some ⟨"Decimal", none, some 10, none⟩ ∧
      ofText? "Decimal( +010 , 2)" = some ⟨"Decimal", none, some 10, some 2⟩ ∧
      ofText? (text ⟨"Decimal", none, some 10, some 2⟩) =
        some ⟨"Decimal", none, some 10, some 2⟩ := by
  have hwide : IsBounded ⟨"Decimal", none, some 18446744073709551615, some 0⟩ := by
    rintro n (h | h | h) <;> cases h <;> decide
  have hshort : IsBounded ⟨"Decimal", none, some 10, none⟩ := by
    rintro n (h | h | h) <;> cases h
    decide
  have hread : ofText? "Decimal( +010 , 2)" = some ⟨"Decimal", none, some 10, some 2⟩ := by decide
  refine ⟨(text_faithful.1 _ hwide).mpr ⟨by decide, .inr (.inr ⟨rfl, rfl, rfl⟩)⟩, ?_, hread,
    (text_faithful.2 _ _ hread).2⟩
  rw [ne_eq, text_faithful.1 _ hshort]
  simp

end ColumnType
end ModelGraph
