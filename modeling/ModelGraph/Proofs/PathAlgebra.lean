import ModelGraph.Path

namespace ModelGraph.Path

/-- A name that stands alone as a path: not empty, without colons and blanks. -/
def IsSegment (name : String) : Prop := segmentFault? name.toList = none

instance (name : String) : Decidable (IsSegment name) := inferInstanceAs (Decidable (_ = none))

theorem segmentFault?_eq_none {s : List Char} :
    segmentFault? s = none ↔ s ≠ [] ∧ ':' ∉ s ∧ ∀ c ∈ s, Text.isBlank c = false := by
  unfold segmentFault?
  split
  · next h => simp_all
  · next h =>
    split
    · next hc => simp_all
    · next hc =>
      split
      · next hb =>
        simp only [reduceCtorEq, false_iff, not_and, Classical.not_forall, Bool.not_eq_false]
        intro _ _
        obtain ⟨c, hc, hb⟩ := List.any_eq_true.mp hb
        exact ⟨c, hc, hb⟩
      · next hb => simp_all

theorem IsSegment.ne_nil {name : String} (h : IsSegment name) : name.toList ≠ [] :=
  (segmentFault?_eq_none.mp h).1

theorem IsSegment.no_colon {name : String} (h : IsSegment name) : ':' ∉ name.toList :=
  (segmentFault?_eq_none.mp h).2.1

theorem cutLast_of_no_colon {s : List Char} (h : ':' ∉ s) : cutLast s = none := by
  induction s with
  | nil => rfl
  | cons c s ih =>
    simp only [List.mem_cons, not_or] at h
    unfold cutLast
    rw [ih h.2]
    cases s with
    | nil => simp
    | cons d s =>
      split
      · simp_all
      · split
        · next heq => simp_all
        · rfl

theorem cutLast_append {n : List Char} (hn : ':' ∉ n) (q : List Char) :
    cutLast (q ++ ':' :: ':' :: n) = some (q, n) := by
  induction q with
  | nil =>
    have hrest : cutLast (':' :: n) = none := by
      unfold cutLast
      rw [cutLast_of_no_colon hn]
      cases n with
      | nil => rfl
      | cons d n =>
        split
        · simp_all
        · split
          · next heq => simp_all
          · rfl
    unfold cutLast
    simp only [List.nil_append, hrest]
  | cons c q ih =>
    unfold cutLast
    simp only [List.cons_append, ih]

theorem cutLast_eq_some {s q n : List Char} (h : cutLast s = some (q, n)) :
    s = q ++ ':' :: ':' :: n := by
  induction s generalizing q n with
  | nil => simp [cutLast] at h
  | cons c s ih =>
    unfold cutLast at h
    split at h
    · next q' n' hs =>
      simp only [Option.some.injEq, Prod.mk.injEq] at h
      rw [← h.1, ← h.2, ih hs, List.cons_append]
    · split at h
      · simp only [Option.some.injEq, Prod.mk.injEq] at h
        rw [← h.1, ← h.2, List.nil_append]
      · simp at h

theorem cut_of_no_colon {s : List Char} (h : ':' ∉ s) : cut s = [s] := by
  induction s with
  | nil => rfl
  | cons c s ih =>
    simp only [List.mem_cons, not_or] at h
    rw [cut, ih h.2]
    intro rest hc _
    exact h.1 hc.symm

theorem cut_append {s : List Char} (h : ':' ∉ s) (rest : List Char) :
    cut (s ++ ':' :: ':' :: rest) = s :: cut rest := by
  induction s with
  | nil => rfl
  | cons c s ih =>
    simp only [List.mem_cons, not_or] at h
    rw [List.cons_append, cut, ih h.2]
    intro rest' hc _
    exact h.1 hc.symm

/-- Text without a colon is cut off as it stands; the rest may hold further separators. -/
theorem cut_eq_cons {s : List Char} (hs : ∀ segment ∈ cut s, ':' ∉ segment) :
    (cut s = [s] ∧ ':' ∉ s) ∨
      ∃ a rest, ':' ∉ a ∧ s = a ++ ':' :: ':' :: rest ∧ cut s = a :: cut rest := by
  fun_induction cut s with
  | case1 rest ih => exact .inr ⟨[], rest, by simp, rfl, rfl⟩
  | case2 c rest _ hrest ih =>
    rw [hrest] at ih
    cases ih (by simp) with
    | inl h => simp at h
    | inr h =>
      obtain ⟨a, r, _, _, h⟩ := h
      simp at h
  | case3 c rest hc segment segments hrest ih =>
    have hcol : c ≠ ':' := by
      intro he
      exact hs (c :: segment) (by simp) (by simp [he])
    have hsub : ∀ x ∈ segment :: segments, ':' ∉ x := by
      intro x hx
      rcases List.mem_cons.mp hx with rfl | hx
      · intro hm
        exact hs (c :: x) (by simp) (by simp [hm])
      · exact hs x (by simp [hx])
    rw [hrest] at ih
    cases ih hsub with
    | inl h =>
      obtain ⟨h, hr⟩ := h
      simp only [List.cons.injEq] at h
      exact .inl ⟨by rw [h.1, h.2], by simp [hr, Ne.symm hcol]⟩
    | inr h =>
      obtain ⟨a, r, ha, hr, h⟩ := h
      simp only [List.cons.injEq] at h
      exact .inr ⟨c :: a, r, by simp [ha, Ne.symm hcol], by rw [hr, List.cons_append],
        by rw [h.1, h.2]⟩
  | case4 => exact .inl ⟨rfl, by simp⟩

theorem cut_append_last {q n : List Char} (hq : ∀ segment ∈ cut q, ':' ∉ segment) (hn : ':' ∉ n) :
    cut (q ++ ':' :: ':' :: n) = cut q ++ [n] := by
  cases cut_eq_cons hq with
  | inl h => rw [cut_append h.2, cut_of_no_colon hn, h.1, List.singleton_append]
  | inr h =>
    obtain ⟨a, rest, ha, rfl, hc⟩ := h
    have hrest : ∀ segment ∈ cut rest, ':' ∉ segment := by
      intro segment hs
      exact hq segment (by rw [hc]; exact List.mem_cons_of_mem a hs)
    have ih := cut_append_last hrest hn
    rw [List.append_assoc, List.cons_append, List.cons_append, cut_append ha, cut_append ha, ih,
      List.cons_append]
termination_by q.length

/-- A text whose pieces have no colon is one piece, or ends in the last of its pieces. -/
theorem cut_eq_append_last {s : List Char} (hs : ∀ segment ∈ cut s, ':' ∉ segment) :
    (cut s = [s] ∧ ':' ∉ s) ∨
      ∃ q n, s = q ++ ':' :: ':' :: n ∧ ':' ∉ n ∧ cut s = cut q ++ [n] := by
  cases cut_eq_cons hs with
  | inl h => exact .inl h
  | inr h =>
    obtain ⟨a, rest, ha, rfl, hc⟩ := h
    have hrest : ∀ segment ∈ cut rest, ':' ∉ segment := by
      intro segment hs'
      exact hs segment (by rw [hc]; exact List.mem_cons_of_mem a hs')
    cases cut_eq_append_last hrest with
    | inl h => exact .inr ⟨a, rest, rfl, h.2, by rw [hc, h.1, cut_of_no_colon ha, List.singleton_append]⟩
    | inr h =>
      obtain ⟨q, n, rfl, hn, hcut⟩ := h
      refine .inr ⟨a ++ ':' :: ':' :: q, n, ?_, hn, ?_⟩
      · simp
      · rw [hc, hcut, cut_append ha, List.cons_append]
termination_by s.length

theorem ext_toList {p q : Path} (h : p.text.toList = q.text.toList) : p = q := by
  cases p
  cases q
  exact congrArg Path.mk (String.toList_inj.mp h)

theorem toList_nest (q : Path) (n : String) :
    (q.nest n).text.toList = q.text.toList ++ ':' :: ':' :: n.toList := by
  have h : "::".toList = [':', ':'] := rfl
  simp [nest, String.toList_append, h]

def nestAll (q : Path) (names : List String) : Path := names.foldl nest q

theorem nestAll_concat (q : Path) (names : List String) (n : String) :
    q.nestAll (names ++ [n]) = (q.nestAll names).nest n := by
  simp [nestAll]

theorem toList_nestAll (q : Path) (names : List String) :
    (q.nestAll names).text.toList =
      q.text.toList ++ names.flatMap fun n => ':' :: ':' :: n.toList := by
  induction names generalizing q with
  | nil => simp [nestAll]
  | cons n names ih =>
    rw [nestAll, List.foldl_cons, ← nestAll, ih, toList_nest]
    simp

theorem nestAll_congr {q : Path} {names names' : List String}
    (h : q.nestAll names = q.nestAll names') (q' : Path) : q'.nestAll names = q'.nestAll names' := by
  have hl := congrArg (fun p => p.text.toList) h
  simp only [toList_nestAll, List.append_cancel_left_eq] at hl
  apply ext_toList
  rw [toList_nestAll, toList_nestAll, hl]

theorem package?_nest {n : String} (hn : IsSegment n) (q : Path) : (q.nest n).package? = some q := by
  rw [package?, toList_nest, cutLast_append hn.no_colon]
  exact congrArg some (ext_toList (by simp [ofChars]))

theorem name_nest {n : String} (hn : IsSegment n) (q : Path) : (q.nest n).name = n := by
  rw [name, toList_nest, cutLast_append hn.no_colon]
  exact String.ofList_toList

theorem package?_join {n : String} (hn : IsSegment n) (o : Option Path) : (join o n).package? = o := by
  cases o with
  | none => simp [join, package?, cutLast_of_no_colon hn.no_colon]
  | some q => exact package?_nest hn q

theorem name_join {n : String} (hn : IsSegment n) (o : Option Path) : (join o n).name = n := by
  cases o with
  | none => simp [join, name, cutLast_of_no_colon hn.no_colon]
  | some q => exact name_nest hn q

theorem join_package?_name (p : Path) : join p.package? p.name = p := by
  unfold package? name
  cases h : cutLast p.text.toList with
  | none => rfl
  | some r =>
    obtain ⟨q, n⟩ := r
    apply ext_toList
    rw [cutLast_eq_some h]
    exact (toList_nest _ _).trans (by simp [ofChars])

theorem join_name_of_package? {p : Path} {o : Option Path} (h : p.package? = o) :
    join o p.name = p := by
  rw [← h]
  exact join_package?_name p

theorem ancestors_eq {p q : Path} (h : p.package? = some q) : p.ancestors = q :: q.ancestors := by
  rw [ancestors]
  split
  · next q' h' =>
    rw [Option.some.inj (h.symm.trans h')]
  · next h' =>
    rw [h] at h'
    cases h'

theorem ancestors_eq_nil {p : Path} (h : p.package? = none) : p.ancestors = [] := by
  rw [ancestors]
  split
  · next q hq =>
    rw [h] at hq
    cases hq
  · rfl

theorem mem_ancestors {p q o : Path} (h : p.package? = some q) (ho : o = q ∨ o ∈ q.ancestors) :
    o ∈ p.ancestors := by
  rw [ancestors_eq h]
  exact List.mem_cons.mpr ho

theorem length_lt_of_mem_ancestors {p q : Path} (h : q ∈ p.ancestors) :
    q.text.toList.length < p.text.toList.length := by
  fun_induction ancestors p with
  | case1 p o ho ih =>
    have hlt := package?_length ho
    rcases List.mem_cons.mp h with rfl | h
    · exact hlt
    · exact Nat.lt_trans (ih h) hlt
  | case2 => cases h

theorem isSimpleName_of_isSegment {n : String} (hn : IsSegment n) : isSimpleName n = true := by
  have h : n ≠ "" := by
    intro he
    exact hn.ne_nil (by rw [he]; rfl)
  simp [isSimpleName, cutLast_of_no_colon hn.no_colon, h]

theorem fault?_eq_none {p : Path} :
    p.fault? = none ↔ ∀ segment ∈ cut p.text.toList, segmentFault? segment = none := by
  unfold fault?
  split
  · next h =>
    have ht : p.text.toList = [] := by rw [String.isEmpty_iff.mp h]; rfl
    simp [ht, cut, segmentFault?]
  · rw [List.findSome?_eq_none_iff]

theorem fault?_eq_none_iff_join {p : Path} :
    p.fault? = none ↔ IsSegment p.name ∧ ∀ q, p.package? = some q → q.fault? = none := by
  have hcolon : ∀ s : List Char, (∀ segment ∈ cut s, segmentFault? segment = none) →
      ∀ segment ∈ cut s, ':' ∉ segment :=
    fun s h segment hs => (segmentFault?_eq_none.mp (h segment hs)).2.1
  constructor
  · intro h
    have h := fault?_eq_none.mp h
    cases cut_eq_append_last (hcolon _ h) with
    | inl hone =>
      have hl := cutLast_of_no_colon hone.2
      refine ⟨?_, by simp [package?, hl]⟩
      have hp := h p.text.toList (by simp [hone.1])
      simpa [IsSegment, name, hl] using hp
    | inr hmore =>
      obtain ⟨q, n, ht, hn, hc⟩ := hmore
      have hl : cutLast p.text.toList = some (q, n) := by rw [ht, cutLast_append hn]
      rw [hc] at h
      constructor
      · simpa [IsSegment, name, hl] using h n (by simp)
      · intro r hr
        simp only [package?, hl, Option.map_some, Option.some.injEq] at hr
        subst hr
        apply fault?_eq_none.mpr
        intro segment hs
        have hs : segment ∈ cut q := by simpa [ofChars] using hs
        exact h segment (List.mem_append_left [n] hs)
  · rintro ⟨hn, hq⟩
    rw [← join_package?_name p]
    cases hp : p.package? with
    | none =>
      apply fault?_eq_none.mpr
      intro segment hs
      rw [join, cut_of_no_colon hn.no_colon, List.mem_singleton] at hs
      exact hs ▸ hn
    | some q =>
      have hq := fault?_eq_none.mp (hq q hp)
      apply fault?_eq_none.mpr
      intro segment hs
      rw [join, toList_nest, cut_append_last (hcolon _ hq) hn.no_colon, List.mem_append,
        List.mem_singleton] at hs
      rcases hs with hs | rfl
      · exact hq segment hs
      · exact hn

theorem isSegment_name {p : Path} (h : p.fault? = none) : IsSegment p.name :=
  (fault?_eq_none_iff_join.mp h).1

theorem fault?_package {p q : Path} (h : p.fault? = none) (hq : p.package? = some q) : q.fault? = none :=
  (fault?_eq_none_iff_join.mp h).2 q hq

theorem text_ne_empty {p : Path} (h : p.fault? = none) : p.text ≠ "" := by
  intro he
  have hp : p = ⟨""⟩ := congrArg Path.mk he
  subst hp
  exact (isSegment_name h).ne_nil (by decide)

theorem fault?_join {o : Option Path} {n : String} (ho : ∀ q, o = some q → q.fault? = none)
    (hn : IsSegment n) : (join o n).fault? = none := by
  apply fault?_eq_none_iff_join.mpr
  rw [name_join hn, package?_join hn]
  exact ⟨hn, ho⟩

end ModelGraph.Path
