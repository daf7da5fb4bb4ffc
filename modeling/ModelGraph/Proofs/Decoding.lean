import Mathlib.Data.List.Dedup
import ModelGraph.Digest.Input
import ModelGraph.Proofs.CompactText

namespace ModelGraph

namespace HashInput

def Agree (x y : HashInput) : Prop := x.length < UInt64.size ∧ x = y

/-- What is written can be told by whoever reads on, up to a relation, whatever comes behind. -/
def Delimits {α : Type} (R : α → α → Prop) (write : α → HashInput) : Prop :=
  ∀ ⦃a b x y⦄, Agree (write a ++ x) (write b ++ y) → R a b ∧ Agree x y

def Separates {α : Type} (Fits : α → Prop) (R : α → α → Prop) (write : α → HashInput) : Prop :=
  ∀ ⦃a b x y⦄, Fits a → Fits b → write a ++ x = write b ++ y → R a b ∧ x = y

variable {α β : Type} {Fits : α → Prop} {R : α → α → Prop} {write : α → HashInput}
variable {a b x y : HashInput}

theorem Agree.symm (h : Agree x y) : Agree y x := ⟨h.2 ▸ h.1, h.2.symm⟩

theorem Agree.length_eq (h : Agree x y) : x.length = y.length := congrArg List.length h.2

theorem Agree.of_append (h : Agree (a ++ x) (b ++ y)) (hl : a.length = b.length) :
    a = b ∧ Agree x y := by
  obtain ⟨hab, hxy⟩ := List.append_inj h.2 hl
  have hlength := h.1
  rw [List.length_append] at hlength
  exact ⟨hab, by omega, hxy⟩

theorem Agree.tail (h : Agree (a ++ x) (a ++ y)) : Agree x y := (h.of_append rfl).2

theorem Agree.ending (h : Agree x y) : Agree (x ++ []) (y ++ []) := by simpa using h

theorem Delimits.rel (hw : Delimits R write) {u v : α} (h : Agree (write u) (write v)) : R u v :=
  (hw h.ending).1

theorem Delimits.comp (hw : Delimits R write) (f : β → α) :
    Delimits (fun u v => R (f u) (f v)) (fun u => write (f u)) :=
  fun _ _ _ _ h => hw h

theorem Delimits.mono {S : α → α → Prop} (hw : Delimits R write) (h : ∀ u v, R u v → S u v) :
    Delimits S write :=
  fun _ _ _ _ hxy => ⟨h _ _ (hw hxy).1, (hw hxy).2⟩

theorem Separates.comp (hw : Separates Fits R write) (f : β → α) :
    Separates (fun u => Fits (f u)) (fun u v => R (f u) (f v)) (fun u => write (f u)) :=
  fun _ _ _ _ hu hv h => hw hu hv h

theorem Separates.mono {S : α → α → Prop} (hw : Separates Fits R write)
    (h : ∀ u v, R u v → S u v) : Separates Fits S write :=
  fun _ _ _ _ hu hv hxy => ⟨h _ _ (hw hu hv hxy).1, (hw hu hv hxy).2⟩

theorem separates_of_length {n : Nat} (hn : ∀ u, (write u).length = n)
    (h : ∀ u v, write u = write v → R u v) : Separates (fun _ => True) R write := by
  intro u v x y _ _ hxy
  obtain ⟨huv, hrest⟩ := List.append_inj hxy ((hn u).trans (hn v).symm)
  exact ⟨h u v huv, hrest⟩

theorem Separates.delimits (hw : Separates Fits R write)
    (hfits : ∀ u, (write u).length < UInt64.size → Fits u) : Delimits R write := by
  intro u v x y h
  have hlength := h.1
  have hlengths := h.length_eq
  rw [List.length_append] at hlength
  rw [List.length_append, List.length_append] at hlengths
  obtain ⟨huv, rfl⟩ := hw (hfits u (by omega)) (hfits v (by omega)) h.2
  exact ⟨huv, by omega, rfl⟩

/-- Of two fields that a word can measure the longer measures all it takes to tell them, so what
comes behind may be of any length. -/
theorem Delimits.separates (hw : Delimits R write) :
    Separates (fun u => (write u).length < UInt64.size) R write := by
  intro u v x y hu hv h
  rcases List.append_eq_append_iff.mp h with ⟨z, hz, rfl⟩ | ⟨z, hz, rfl⟩
  · rw [← List.append_nil (write v)] at hv hz
    obtain ⟨huv, -, rfl⟩ := hw ⟨hz ▸ hv, hz.symm⟩
    exact ⟨huv, rfl⟩
  · rw [← List.append_nil (write u)] at hu hz
    obtain ⟨huv, -, rfl⟩ := hw ⟨hu, hz⟩
    exact ⟨huv, rfl⟩

@[simp]
theorem length_word (n : Int) : (word n).length = 8 := by
  simp [word]

theorem mod_pow_of_digits {m n k : Nat}
    (h : ∀ i < k, m / Nat.pow 256 i % 256 = n / Nat.pow 256 i % 256) :
    m % Nat.pow 256 k = n % Nat.pow 256 k := by
  change m % 256 ^ k = n % 256 ^ k
  replace h : ∀ i < k, m / 256 ^ i % 256 = n / 256 ^ i % 256 := h
  induction k with
  | zero => rw [Nat.pow_zero, Nat.mod_one, Nat.mod_one]
  | succ k ih =>
    rw [Nat.mod_pow_succ, Nat.mod_pow_succ, h k (Nat.lt_succ_self k),
      ih fun i hi => h i (Nat.lt_succ_of_lt hi)]

theorem word_inj {m n : Int} (h : word m = word n) : m % UInt64.size = n % UInt64.size := by
  have hdigits : ∀ i < 8, (m % UInt64.size).toNat / Nat.pow 256 i % 256 =
      (n % UInt64.size).toNat / Nat.pow 256 i % 256 := by
    intro i hi
    rw [word, word] at h
    have hbyte := congrArg UInt8.toNat (List.map_inj_left.mp h i (List.mem_range.mpr hi))
    rwa [UInt8.toNat_ofNat', UInt8.toNat_ofNat'] at hbyte
  have hmod : (m % UInt64.size).toNat % UInt64.size = (n % UInt64.size).toNat % UInt64.size :=
    mod_pow_of_digits hdigits
  unfold UInt64.size at hmod ⊢
  omega

theorem eq_of_natCast_mod {m n : Nat} (hm : m < UInt64.size) (hn : n < UInt64.size)
    (h : (m : Int) % UInt64.size = (n : Int) % UInt64.size) : m = n := by
  unfold UInt64.size at hm hn h
  omega

theorem word_natCast_inj {m n : Nat} (hm : m < UInt64.size) (hn : n < UInt64.size)
    (h : word m = word n) : m = n :=
  eq_of_natCast_mod hm hn (word_inj h)

theorem delimits_word : Delimits (fun m n : Int => m % UInt64.size = n % UInt64.size) word :=
  (separates_of_length length_word fun _ _ => word_inj).delimits fun _ _ => trivial

@[simp]
theorem length_block (bytes : List UInt8) : (block bytes).length = bytes.length + 8 := by
  rw [block, List.length_append, length_word]
  omega

theorem separates_block :
    Separates (fun bytes : List UInt8 => bytes.length < UInt64.size) Eq block := by
  intro a b x y ha hb h
  rw [block, block, List.append_assoc, List.append_assoc] at h
  obtain ⟨hword, h⟩ := List.append_inj h (by rw [length_word, length_word])
  exact List.append_inj h (word_natCast_inj ha hb hword)

theorem toList_loop (bs : ByteArray) (i : Nat) (r : List UInt8) :
    ByteArray.toList.loop bs i r = r.reverse ++ bs.data.toList.drop i := by
  fun_induction ByteArray.toList.loop bs i r with
  | case1 i r h ih =>
    have hi : i < bs.data.toList.length := by simpa using h
    rw [ih, List.drop_eq_getElem_cons hi]
    simp [ByteArray.get!, h]
  | case2 i r h =>
    rw [List.drop_eq_nil_of_le (by simpa using Nat.le_of_not_lt h), List.append_nil]

theorem toList_eq (bs : ByteArray) : bs.toList = bs.data.toList := by
  rw [ByteArray.toList, toList_loop, List.drop_zero]
  rfl

theorem text_eq_block : text = fun s => block s.toUTF8.data.toList := by
  funext s
  rw [text, toList_eq]

theorem separates_text : Separates (fun s : String => s.utf8ByteSize < UInt64.size) Eq text := by
  intro s t x y hs ht h
  rw [text_eq_block] at h
  obtain ⟨hbytes, hxy⟩ := separates_block hs ht h
  exact ⟨String.toByteArray_inj.mp (ByteArray.ext (Array.toList_inj.mp hbytes)), hxy⟩

theorem length_text_eq (s : String) : (text s).length = s.utf8ByteSize + 8 := by
  rw [text_eq_block]
  exact length_block _

theorem length_text (s : String) : 8 ≤ (text s).length := by
  rw [length_text_eq]
  omega

theorem delimits_text : Delimits Eq text := by
  apply separates_text.delimits
  intro s h
  rw [length_text_eq] at h
  omega

theorem delimits_json : Delimits Json.SameText json := delimits_text.comp Json.compact

@[simp]
theorem length_code (d : Digest) : (code d).length = 40 := by
  rw [code, length_block, Vector.length_toList]

theorem code_inj {d e : Digest} (h : code d = code e) : d = e := by
  obtain ⟨bytes⟩ := d
  obtain ⟨bytes'⟩ := e
  exact congrArg Digest.mk (Vector.toList_inj.mp (List.append_inj_right h rfl))

theorem separates_code : Separates (fun _ => True) Eq code :=
  separates_of_length length_code fun _ _ => code_inj

theorem delimits_code : Delimits Eq code := separates_code.delimits fun _ _ => trivial

theorem separates_flag : Separates (fun _ => True) Eq flag := by
  apply separates_of_length (n := 1) fun _ => rfl
  intro b c h
  revert h
  cases b <;> cases c <;> decide

theorem delimits_flag : Delimits Eq flag := separates_flag.delimits fun _ _ => trivial

theorem Separates.optional (hw : Separates Fits R write) :
    Separates (fun o => ∀ u ∈ o, Fits u) (Option.Rel R) (optional write) := by
  intro o p x y ho hp h
  cases o with
  | none =>
    cases p with
    | none => exact ⟨.none, (List.cons.inj h).2⟩
    | some v => exact absurd (List.cons.inj h).1 (by decide)
  | some u =>
    cases p with
    | none => exact absurd (List.cons.inj h).1 (by decide)
    | some v =>
      obtain ⟨huv, hxy⟩ := hw (ho u rfl) (hp v rfl) (List.cons.inj h).2
      exact ⟨.some huv, hxy⟩

theorem Delimits.optional (hw : Delimits R write) : Delimits (Option.Rel R) (optional write) := by
  apply hw.separates.optional.delimits
  rintro o ho u rfl
  exact Nat.lt_of_succ_lt ho

theorem eq_of_optionRel {o p : Option α} (h : Option.Rel Eq o p) : o = p := by
  cases h with
  | none => rfl
  | some h => rw [h]

theorem optionRel_map {S : β → β → Prop} {f : α → β} {o p : Option α}
    (h : Option.Rel (fun a b => S (f a) (f b)) o p) : Option.Rel S (o.map f) (p.map f) := by
  cases h with
  | none => exact .none
  | some h => exact .some h

theorem optionRel_of_map {f : α → β} {o p : Option α} (h : o.map f = p.map f) :
    Option.Rel (fun a b => f a = f b) o p := by
  cases o with
  | none =>
    cases p with
    | none => exact .none
    | some b => cases h
  | some a =>
    cases p with
    | none => cases h
    | some b => exact .some (Option.some.inj h)

theorem delimits_optText : Delimits Eq optText :=
  delimits_text.optional.mono fun _ _ => eq_of_optionRel

theorem delimits_optCode : Delimits Eq optCode :=
  delimits_code.optional.mono fun _ _ => eq_of_optionRel

theorem Separates.flatMap (hw : Separates Fits R write) {us vs : List α} {x y : HashInput}
    (hl : us.length = vs.length) (hu : ∀ u ∈ us, Fits u) (hv : ∀ v ∈ vs, Fits v)
    (h : us.flatMap write ++ x = vs.flatMap write ++ y) : List.Forall₂ R us vs ∧ x = y := by
  induction us generalizing vs with
  | nil =>
    rw [List.length_nil] at hl
    rw [List.eq_nil_of_length_eq_zero hl.symm] at h ⊢
    exact ⟨.nil, h⟩
  | cons u us ih =>
    cases vs with
    | nil => cases hl
    | cons v vs =>
      rw [List.forall_mem_cons] at hu hv
      rw [List.flatMap_cons, List.flatMap_cons, List.append_assoc, List.append_assoc] at h
      obtain ⟨huv, h⟩ := hw hu.1 hv.1 h
      obtain ⟨hrest, hxy⟩ := ih (Nat.succ.inj hl) hu.2 hv.2 h
      exact ⟨.cons huv hrest, hxy⟩

theorem Separates.counted (hw : Separates Fits R write) :
    Separates (fun us => us.length < UInt64.size ∧ ∀ u ∈ us, Fits u) (List.Forall₂ R)
      (counted write) := by
  intro us vs x y hus hvs h
  rw [HashInput.counted, HashInput.counted, List.append_assoc, List.append_assoc] at h
  obtain ⟨hword, h⟩ := List.append_inj h (by rw [length_word, length_word])
  exact hw.flatMap (word_natCast_inj hus.1 hvs.1 hword) hus.2 hvs.2 h

theorem Delimits.flatMap_end (hw : Delimits R write) (hpos : ∀ u, write u ≠ []) {us vs : List α}
    (h : Agree (us.flatMap write) (vs.flatMap write)) : List.Forall₂ R us vs := by
  induction us generalizing vs with
  | nil =>
    cases vs with
    | nil => exact .nil
    | cons v vs =>
      rw [List.flatMap_nil, List.flatMap_cons] at h
      exact absurd (List.append_eq_nil_iff.mp h.2.symm).1 (hpos v)
  | cons u us ih =>
    cases vs with
    | nil =>
      rw [List.flatMap_nil, List.flatMap_cons] at h
      exact absurd (List.append_eq_nil_iff.mp h.2).1 (hpos u)
    | cons v vs =>
      rw [List.flatMap_cons, List.flatMap_cons] at h
      obtain ⟨huv, h⟩ := hw h
      exact .cons huv (ih h)

theorem length_le_flatMap (hpos : ∀ u, write u ≠ []) (us : List α) :
    us.length ≤ (us.flatMap write).length := by
  induction us with
  | nil => exact Nat.le_refl 0
  | cons u us ih =>
    have hu := List.length_pos_iff.mpr (hpos u)
    rw [List.flatMap_cons, List.length_append, List.length_cons]
    omega

theorem length_le_of_mem (write : α → HashInput) {us : List α} {u : α} (hu : u ∈ us) :
    (write u).length ≤ (us.flatMap write).length := by
  rw [List.flatMap_def]
  exact (List.sublist_flatten_of_mem (List.mem_map_of_mem hu)).length_le

theorem Delimits.counted (hw : Delimits R write) (hpos : ∀ u, write u ≠ []) :
    Delimits (List.Forall₂ R) (counted write) := by
  apply hw.separates.counted.delimits
  intro us hus
  rw [HashInput.counted, List.length_append, length_word] at hus
  have hcount := length_le_flatMap hpos us
  refine ⟨by omega, fun u hu => ?_⟩
  have hlength := length_le_of_mem write hu
  omega

theorem text_ne_nil (s : String) : text s ≠ [] := by
  have h := length_text s
  intro hnil
  rw [hnil, List.length_nil] at h
  omega

theorem code_ne_nil (d : Digest) : code d ≠ [] := by
  have h := length_code d
  intro hnil
  rw [hnil, List.length_nil] at h
  omega

theorem eq_of_forall₂ {us vs : List α} (h : List.Forall₂ Eq us vs) : us = vs := by
  rwa [List.forall₂_eq_eq_eq] at h

theorem delimits_texts : Delimits Eq texts :=
  (delimits_text.counted text_ne_nil).mono fun _ _ => eq_of_forall₂

theorem delimits_codes : Delimits Eq codes :=
  (delimits_code.counted code_ne_nil).mono fun _ _ => eq_of_forall₂

theorem tag_inj {s t : HashTag} (h : s.text = t.text) : s = t := by
  have hread : ∀ t : HashTag, HashTag.ofText? t.text = some t := by
    intro t
    cases t <;> rfl
  have hs := hread s
  rw [h, hread t] at hs
  exact (Option.some.inj hs).symm

theorem delimits_tag : Delimits Eq tag :=
  (delimits_text.comp HashTag.text).mono fun _ _ => tag_inj

end HashInput

open HashInput

/-- Inputs short enough to be measured, none of which collides with one of the others. -/
structure Apart (xs ys : List HashInput) : Prop where
  short : ∀ x ∈ xs, x.length < UInt64.size
  distinct : ∀ x ∈ xs, ∀ y ∈ ys, x.digest = y.digest → x = y

namespace Apart

variable {α : Type} {xs ys xs' ys' : List HashInput} {x y : HashInput} {as bs : List α}
  {inputs inputs' : α → List HashInput} {input : α → HashInput} {digest digest' : α → Digest}
  {R : α → α → Prop}

theorem mono (h : Apart xs ys) (hx : xs' ⊆ xs) (hy : ys' ⊆ ys) : Apart xs' ys' where
  short x hm := h.short x (hx hm)
  distinct x hm y hn := h.distinct x (hx hm) y (hy hn)

theorem left (h : Apart (xs ++ xs') (ys ++ ys')) : Apart xs ys :=
  h.mono (List.subset_append_left _ _) (List.subset_append_left _ _)

theorem right (h : Apart (xs ++ xs') (ys ++ ys')) : Apart xs' ys' :=
  h.mono (List.subset_append_right _ _) (List.subset_append_right _ _)

theorem tail (h : Apart (x :: xs) (y :: ys)) : Apart xs ys :=
  h.mono (List.subset_cons_self _ _) (List.subset_cons_self _ _)

theorem agree (h : Apart xs ys) (hx : x ∈ xs) (hy : y ∈ ys) (hd : x.digest = y.digest) :
    Agree x y :=
  ⟨h.short x hx, h.distinct x hx y hy hd⟩

theorem head (h : Apart (x :: xs) (y :: ys)) (hd : x.digest = y.digest) : Agree x y :=
  h.agree List.mem_cons_self List.mem_cons_self hd

/-- Items related in some way are related by what follows from that while no inputs collide. -/
theorem related {Q : α → α → Prop} (h : Apart (as.flatMap inputs) (bs.flatMap inputs'))
    (hq : List.Forall₂ Q as bs)
    (item : ∀ a ∈ as, ∀ b ∈ bs, Apart (inputs a) (inputs' b) → Q a b → R a b) :
    List.Forall₂ R as bs := by
  induction hq with
  | nil => exact .nil
  | @cons a b as bs hab _ ih =>
    rw [List.flatMap_cons, List.flatMap_cons] at h
    apply List.Forall₂.cons
    · exact item a List.mem_cons_self b List.mem_cons_self h.left hab
    · apply ih h.right
      intro c hc d hm
      exact item c (List.mem_cons_of_mem _ hc) d (List.mem_cons_of_mem _ hm)

theorem forall₂ (h : Apart (as.flatMap inputs) (bs.flatMap inputs'))
    (hd : as.map digest = bs.map digest')
    (item : ∀ a ∈ as, ∀ b ∈ bs, Apart (inputs a) (inputs' b) → digest a = digest' b → R a b) :
    List.Forall₂ R as bs := by
  apply h.related _ item
  rw [← List.forall₂_eq_eq_eq, List.forall₂_map_left_iff, List.forall₂_map_right_iff] at hd
  exact hd

theorem forall₂_map (h : Apart (as.map input) (bs.map input))
    (hd : (as.map fun a => (input a).digest) = bs.map fun b => (input b).digest)
    (item : ∀ a ∈ as, ∀ b ∈ bs, Agree (input a) (input b) → R a b) : List.Forall₂ R as bs := by
  rw [List.map_eq_flatMap, List.map_eq_flatMap] at h
  exact h.forall₂ hd fun a ha b hb hab hd => item a ha b hb (hab.head hd)

theorem option {Q : α → α → Prop} {o p : Option α}
    (h : Apart (o.toList.flatMap inputs) (p.toList.flatMap inputs)) (hq : Option.Rel Q o p)
    (item : ∀ a b, Apart (inputs a) (inputs b) → Q a b → R a b) : Option.Rel R o p := by
  cases hq with
  | none => exact .none
  | some hab =>
    simp only [Option.toList_some, List.flatMap_cons, List.flatMap_nil, List.append_nil] at h
    exact .some (item _ _ h hab)

/-- Inputs of which no two different ones have one digest are apart from each other and from
themselves. -/
theorem of_dedup (hx : ∀ x ∈ xs, x.length < UInt64.size) (hd : (xs.dedup.map HashInput.digest).Nodup) :
    Apart xs xs where
  short := hx
  distinct _ hm _ hn he :=
    List.inj_on_of_nodup_map hd (List.mem_dedup.mpr hm) (List.mem_dedup.mpr hn) he

end Apart

end ModelGraph
