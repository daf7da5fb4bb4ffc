import ModelGraph.Report
import ModelGraph.Proofs.CompactText

namespace ModelGraph

namespace Json

def IsPlain (c : Char) : Prop := c ≠ '"' ∧ c ≠ '\\' ∧ 0x20 ≤ c.toNat

instance (c : Char) : Decidable (IsPlain c) := inferInstanceAs (Decidable (_ ∧ _))

variable {c : Char} {p s : String} {x w : List Char}

theorem escaped_of_isPlain (h : IsPlain c) : escaped c = [c] := by
  obtain ⟨hquote, hslash, hlow⟩ := h
  have hne {d : Char} (hd : d.toNat < 0x20) : c ≠ d := by
    rintro rfl
    omega
  rw [escaped, if_neg hquote, if_neg hslash, if_neg (hne (by decide)), if_neg (hne (by decide)),
    if_neg (hne (by decide)), if_neg (by omega), if_neg (by omega), if_neg (by omega)]

theorem escaped_of_not_isPlain (h : ¬IsPlain c) : ∃ d more, escaped c = '\\' :: d :: more := by
  rw [escaped]
  by_cases hquote : c = '"'
  · exact ⟨_, _, if_pos hquote⟩
  by_cases hslash : c = '\\'
  · exact ⟨_, _, by rw [if_neg hquote, if_pos hslash]⟩
  have hlow : c.toNat < 0x20 := by
    by_contra hlow
    exact h ⟨hquote, hslash, by omega⟩
  rw [if_neg hquote, if_neg hslash, if_pos hlow]
  split_ifs <;> exact ⟨_, _, rfl⟩

theorem eq_quote_of_mem_escaped (h : '"' ∈ escaped c) : c = '"' := by
  by_contra hne
  by_cases hp : IsPlain c
  · rw [escaped_of_isPlain hp, List.mem_singleton] at h
    exact hne h.symm
  · rw [escaped, if_neg hne] at h
    have hhex := fun n => (hexDigit_ne_quote n).1.symm
    split_ifs at h <;> simp [hhex, Ne.symm hne] at h

theorem flatMap_escaped_of_isPlain {cs : List Char} (h : ∀ c ∈ cs, IsPlain c) :
    cs.flatMap escaped = cs := by
  induction cs with
  | nil => rfl
  | cons c cs ih =>
    rw [List.flatMap_cons, escaped_of_isPlain (h c List.mem_cons_self),
      ih fun d hd => h d (List.mem_cons_of_mem _ hd)]
    rfl

theorem quoted_of_isPlain (h : ∀ c ∈ p.toList, IsPlain c) :
    quoted p = '"' :: (p.toList ++ ['"']) := by
  rw [quoted, flatMap_escaped_of_isPlain h]

theorem quoted_inj : quoted s = quoted p ↔ s = p := by
  constructor
  · intro h
    exact (quoted_append_inj (congrArg (· ++ []) h)).1
  · exact congrArg quoted

theorem flatMap_escaped_eq_iff (h : ∀ c ∈ p.toList, IsPlain c) :
    s.toList.flatMap escaped = p.toList ↔ s = p := by
  rw [← quoted_inj, quoted_of_isPlain h, quoted]
  simp

theorem exists_of_flatMap_escaped {cs : List Char} (h : cs.flatMap escaped = x ++ '"' :: w) :
    ∃ before after, cs = before ++ '"' :: after ∧ x = before.flatMap escaped ++ ['\\'] ∧
      w = after.flatMap escaped := by
  induction cs generalizing x with
  | nil => exact absurd h (by simp)
  | cons c cs ih =>
    rw [List.flatMap_cons, List.append_eq_append_iff] at h
    rcases h with ⟨x', rfl, hcs⟩ | ⟨y, hc, hy⟩
    · obtain ⟨before, after, rfl, rfl, hw⟩ := ih hcs
      exact ⟨c :: before, after, rfl, by rw [List.flatMap_cons, List.append_assoc], hw⟩
    · cases y with
      | nil =>
        obtain ⟨before, after, -, hx, -⟩ := ih (x := []) hy.symm
        exact absurd hx (by simp)
      | cons q y =>
        obtain ⟨rfl, rfl⟩ := List.cons.inj hy
        obtain rfl : c = '"' := eq_quote_of_mem_escaped (by rw [hc]; simp)
        have hx : x = ['\\'] ∧ y = [] := by
          have hc : ['\\', '"'] = x ++ '"' :: y := hc
          cases x with
          | nil => simp at hc
          | cons d x =>
            cases x with
            | nil => simpa [eq_comm] using hc
            | cons d' x => simp at hc
        rw [hx.1, hx.2]
        exact ⟨[], cs, rfl, rfl, rfl⟩

end Json

namespace Span

variable {needle b t u w x n : List Char} {c q : Char} {k : Nat}

theorem exists_of_mem_occurrences (h : x ∈ occurrences needle k b t) :
    ∃ before after, t = before ++ (needle ++ after) ∧ x = before.reverse ++ b := by
  fun_induction occurrences needle k b t with
  | case1 => cases h
  | case2 b k c t ih =>
    obtain ⟨before, after, rfl, rfl⟩ := ih h
    exact ⟨c :: before, after, rfl, by simp⟩
  | case3 b c t hstarts ih =>
    rcases List.mem_cons.mp h with rfl | h
    · obtain ⟨after, ht⟩ := List.isPrefixOf_iff_prefix.mp hstarts
      exact ⟨[], after, ht.symm, rfl⟩
    · obtain ⟨before, after, rfl, rfl⟩ := ih h
      exact ⟨c :: before, after, rfl, by simp⟩
  | case4 b c t hstarts ih =>
    obtain ⟨before, after, rfl, rfl⟩ := ih h
    exact ⟨c :: before, after, rfl, by simp⟩

theorem occurrences_eq_nil (hq : q ∈ needle) (hw : q ∉ w) : occurrences needle k b w = [] := by
  rw [List.eq_nil_iff_forall_not_mem]
  intro x hx
  obtain ⟨before, after, rfl, -⟩ := exists_of_mem_occurrences hx
  simp [hq] at hw

theorem occurrences_append_of_head (hw : q ∉ w) :
    occurrences (q :: n) 0 b (w ++ u) = occurrences (q :: n) 0 (w.reverse ++ b) u := by
  induction w generalizing b with
  | nil => rfl
  | cons c w ih =>
    obtain ⟨hne, hw⟩ := not_or.mp (mt List.mem_cons.mpr hw)
    have hstarts : (q :: n).isPrefixOf (c :: (w ++ u)) = false := by
      simp [List.isPrefixOf, hne]
    rw [List.cons_append, occurrences, if_neg (by rw [hstarts]; exact Bool.false_ne_true), ih hw]
    simp

theorem isPrefixOf_append_of_last (hw : q ∉ w) :
    (n ++ [q]).isPrefixOf (t ++ w) = (n ++ [q]).isPrefixOf t := by
  rw [Bool.eq_iff_iff, List.isPrefixOf_iff_prefix, List.isPrefixOf_iff_prefix]
  constructor
  · rintro ⟨r, h⟩
    rcases List.append_eq_append_iff.mp h with ⟨y, ht, -⟩ | ⟨y, hn, rfl⟩
    · exact ⟨y, ht.symm⟩
    · rcases List.eq_nil_or_concat y with rfl | ⟨y, d, rfl⟩
      · exact ⟨[], by simpa using hn⟩
      · rw [List.concat_eq_append, ← List.append_assoc] at hn
        obtain ⟨-, hd⟩ := List.append_inj' hn rfl
        simp [List.singleton_inj.mp hd] at hw
  · exact fun h => h.trans (List.prefix_append t w)

theorem occurrences_append_of_last (hw : q ∉ w) :
    occurrences (n ++ [q]) k b (t ++ w) = occurrences (n ++ [q]) k b t := by
  induction t generalizing k b with
  | nil => exact occurrences_eq_nil (List.mem_append_right n List.mem_cons_self) hw
  | cons c t ih =>
    cases k with
    | zero =>
      rw [List.cons_append, occurrences, occurrences, ← List.cons_append,
        isPrefixOf_append_of_last hw, ih, ih]
    | succ k => exact ih

theorem isPrefixOf_append_of_not_mem (hc : c ∉ needle) :
    needle.isPrefixOf (t ++ c :: u) = needle.isPrefixOf t := by
  rw [Bool.eq_iff_iff, List.isPrefixOf_iff_prefix, List.isPrefixOf_iff_prefix]
  constructor
  · rintro ⟨r, h⟩
    rcases List.append_eq_append_iff.mp h with ⟨y, ht, -⟩ | ⟨y, hn, hy⟩
    · exact ⟨y, ht.symm⟩
    · cases y with
      | nil => exact ⟨[], by simpa using hn⟩
      | cons d y =>
        obtain ⟨rfl, -⟩ := List.cons.inj hy
        simp [hn] at hc
  · exact fun h => h.trans (List.prefix_append t _)

theorem append_prefix_iff (hq : q ∉ n) : n ++ [q] <+: t ++ q :: u ↔ n = t ∨ n ++ [q] <+: t := by
  constructor
  · rintro ⟨r, h⟩
    rcases List.append_eq_append_iff.mp h with ⟨y, ht, -⟩ | ⟨y, hn, hy⟩
    · exact .inr ⟨y, ht.symm⟩
    · rcases List.eq_nil_or_concat y with rfl | ⟨y, d, rfl⟩
      · exact .inr ⟨[], by simpa using hn⟩
      · rw [List.concat_eq_append, ← List.append_assoc] at hn
        obtain ⟨rfl, -⟩ := List.append_inj' hn rfl
        cases y with
        | nil => exact .inl (List.append_nil t)
        | cons e y =>
          obtain ⟨rfl, -⟩ := List.cons.inj hy
          simp at hq
  · rintro (rfl | h)
    · exact ⟨u, by simp⟩
    · exact h.trans (List.prefix_append t _)

theorem occurrences_append (hc : c ∉ needle) (hk : k ≤ t.length) :
    occurrences needle k b (t ++ c :: u) =
      occurrences needle k b t ++ occurrences needle 0 (t.reverse ++ b) (c :: u) := by
  induction t generalizing k b with
  | nil =>
    obtain rfl : k = 0 := Nat.le_zero.mp hk
    rfl
  | cons d t ih =>
    cases k with
    | succ k =>
      rw [List.cons_append, occurrences, occurrences, ih (Nat.le_of_succ_le_succ hk)]
      simp
    | zero =>
      rw [List.cons_append, occurrences, occurrences, ← List.cons_append,
        isPrefixOf_append_of_not_mem hc]
      by_cases hstarts : needle.isPrefixOf (d :: t) = true
      · have hlength : needle.length - 1 ≤ t.length := by
          have := (List.isPrefixOf_iff_prefix.mp hstarts).length_le
          simp only [List.length_cons] at this
          omega
        rw [if_pos hstarts, if_pos hstarts, ih hlength]
        simp
      · rw [if_neg hstarts, if_neg hstarts, ih (Nat.zero_le _)]
        simp

theorem foldl_utf8Size (n : Nat) (s : List Char) :
    s.foldl (fun n c => n + c.utf8Size) n = n + byteLength s := by
  induction s generalizing n with
  | nil => rfl
  | cons c s ih =>
    rw [byteLength, List.foldl_cons, List.foldl_cons, ih, ih, Nat.zero_add, Nat.add_assoc]

@[simp]
theorem byteLength_nil : byteLength [] = 0 := rfl

@[simp]
theorem byteLength_append : byteLength (t ++ u) = byteLength t + byteLength u := by
  rw [byteLength, List.foldl_append, foldl_utf8Size]
  rfl

@[simp]
theorem byteLength_cons : byteLength (c :: t) = c.utf8Size + byteLength t := by
  rw [byteLength, List.foldl_cons, foldl_utf8Size, Nat.zero_add]

@[simp]
theorem byteLength_reverse : byteLength t.reverse = byteLength t := by
  induction t with
  | nil => rfl
  | cons c t ih =>
    rw [List.reverse_cons, byteLength_append, ih, byteLength_cons, byteLength_cons, byteLength_nil,
      Nat.add_zero, Nat.add_comm]

theorem utf8Size_of_not_isPlain (h : ¬Json.IsPlain c) : c.utf8Size = 1 := by
  have hlow : c.toNat ≤ 0x7F := by
    by_contra hhigh
    refine h ⟨?_, ?_, by omega⟩ <;> rintro rfl <;> exact hhigh (by decide)
  exact if_pos (UInt32.le_iff_toNat_le.mpr (show c.val.toNat ≤ (0x7F : UInt32).toNat from hlow))

theorem utf8Size_lt_byteLength_escaped (h : ¬Json.IsPlain c) :
    c.utf8Size < byteLength (Json.escaped c) := by
  obtain ⟨d, more, he⟩ := Json.escaped_of_not_isPlain h
  have hd := d.utf8Size_pos
  have hslash := Char.utf8Size_pos '\\'
  rw [utf8Size_of_not_isPlain h, he, byteLength_cons, byteLength_cons]
  omega

theorem utf8Size_le_byteLength_escaped : c.utf8Size ≤ byteLength (Json.escaped c) := by
  by_cases h : Json.IsPlain c
  · rw [Json.escaped_of_isPlain h, byteLength_cons]
    exact Nat.le_add_right _ _
  · exact Nat.le_of_lt (utf8Size_lt_byteLength_escaped h)

theorem byteLength_le_flatMap_escaped : byteLength t ≤ byteLength (t.flatMap Json.escaped) := by
  induction t with
  | nil => exact Nat.le_refl _
  | cons c t ih =>
    rw [List.flatMap_cons, byteLength_append, byteLength_cons]
    exact Nat.add_le_add utf8Size_le_byteLength_escaped ih

theorem byteLength_flatMap_escaped_eq_iff :
    byteLength (t.flatMap Json.escaped) = byteLength t ↔ ∀ c ∈ t, Json.IsPlain c := by
  constructor
  · intro h
    induction t with
    | nil => exact fun c hc => absurd hc List.not_mem_nil
    | cons c t ih =>
      rw [List.flatMap_cons, byteLength_append, byteLength_cons] at h
      have hc := utf8Size_le_byteLength_escaped (c := c)
      have ht := byteLength_le_flatMap_escaped (t := t)
      refine List.forall_mem_cons.mpr ⟨?_, ih (by omega)⟩
      by_contra hp
      have hlt := utf8Size_lt_byteLength_escaped hp
      omega
  · intro h
    rw [Json.flatMap_escaped_of_isPlain h]

end Span
end ModelGraph
