import ModelGraph.Document

namespace ModelGraph.Json

def Ordered (members : List (String × Json)) : Prop := members.Pairwise fun a b => a.1 < b.1

variable {members rest : List (String × Json)} {key : String} {value : Json}

theorem lookup_head (m : String × Json) : (m :: rest).lookup m.1 = some m.2 :=
  List.lookup_cons_self

theorem lookup_cons_ne {m : String × Json} {k : String} (h : k ≠ m.1) :
    (m :: rest).lookup k = rest.lookup k := by
  have hb : (k == m.1) = false := by simpa using h
  rw [List.lookup_cons, hb]

theorem lookup_of_lt (h : ∀ m ∈ members, key < m.1) : members.lookup key = none := by
  apply List.lookup_eq_none_iff.mpr
  intro m hm
  have hne : key ≠ m.1 := fun he => String.lt_irrefl m.1 (he ▸ h m hm)
  simpa using hne

theorem lt_of_not_lt {a b : String} (h : ¬a < b) (hne : a ≠ b) : b < a :=
  Std.lt_of_le_of_ne (String.not_lt.mp h) hne.symm

theorem Ordered.ext (hm : Ordered members) (hr : Ordered rest)
    (h : ∀ k, members.lookup k = rest.lookup k) : members = rest := by
  induction members generalizing rest with
  | nil =>
    cases rest with
    | nil => rfl
    | cons b rest =>
      have hb := h b.1
      rw [lookup_head] at hb
      cases hb
  | cons a members ih =>
    cases rest with
    | nil =>
      have ha := h a.1
      rw [lookup_head] at ha
      cases ha
    | cons b rest =>
      have ha := List.pairwise_cons.mp hm
      have hb := List.pairwise_cons.mp hr
      have hkey : a.1 = b.1 := by
        by_cases hne : a.1 = b.1
        · exact hne
        by_cases hlt : a.1 < b.1
        · have hn := h a.1
          rw [lookup_head, lookup_of_lt] at hn
          · cases hn
          · intro m hm
            cases List.mem_cons.mp hm with
            | inl he => exact he ▸ hlt
            | inr hm => exact String.lt_trans hlt (hb.1 m hm)
        · have hn := h b.1
          rw [lookup_head, lookup_of_lt] at hn
          · cases hn
          · intro m hm
            cases List.mem_cons.mp hm with
            | inl he => exact he ▸ lt_of_not_lt hlt hne
            | inr hm => exact String.lt_trans (lt_of_not_lt hlt hne) (ha.1 m hm)
      have hvalue : a.2 = b.2 := by
        have hv := h a.1
        rw [lookup_head, hkey, lookup_head] at hv
        exact Option.some.inj hv
      have htail : members = rest := by
        apply ih ha.2 hb.2
        intro k
        by_cases hk : k = a.1
        · rw [hk, lookup_of_lt ha.1, hkey, lookup_of_lt hb.1]
        · have hh := h k
          rwa [lookup_cons_ne hk, lookup_cons_ne (hkey ▸ hk)] at hh
      rw [htail, Prod.ext hkey hvalue]

theorem lookup_insertMember (k : String) :
    (insertMember key value members).lookup k =
      if k = key then some value else members.lookup k := by
  induction members with
  | nil =>
    by_cases h : k = key
    · rw [insertMember, if_pos h, h, List.lookup_cons_self]
    · rw [insertMember, if_neg h, lookup_cons_ne h]
  | cons m rest ih =>
    obtain ⟨l, v⟩ := m
    rw [insertMember]
    by_cases hlt : key < l
    · rw [if_pos hlt]
      by_cases h : k = key
      · rw [if_pos h, h, List.lookup_cons_self]
      · rw [if_neg h, lookup_cons_ne h]
    rw [if_neg hlt]
    by_cases he : key = l
    · subst he
      rw [if_pos rfl]
      by_cases h : k = key
      · rw [if_pos h, h, List.lookup_cons_self]
      · rw [if_neg h, lookup_cons_ne h, lookup_cons_ne h]
    · rw [if_neg he]
      by_cases h : k = l
      · subst h
        rw [List.lookup_cons_self, if_neg (Ne.symm he), List.lookup_cons_self]
      · rw [lookup_cons_ne h, ih, lookup_cons_ne h]

theorem mem_insertMember {m : String × Json} (h : m ∈ insertMember key value members) :
    m = (key, value) ∨ m ∈ members := by
  induction members with
  | nil => exact .inl (List.mem_singleton.mp h)
  | cons a rest ih =>
    obtain ⟨l, v⟩ := a
    rw [insertMember] at h
    split at h
    · exact List.mem_cons.mp h
    split at h
    · cases List.mem_cons.mp h with
      | inl h => exact .inl h
      | inr h => exact .inr (List.mem_cons_of_mem _ h)
    · cases List.mem_cons.mp h with
      | inl h => exact .inr (h ▸ List.mem_cons_self)
      | inr h => exact (ih h).imp_right (List.mem_cons_of_mem _)

theorem Ordered.insertMember (h : Ordered members) : Ordered (insertMember key value members) := by
  induction members with
  | nil => exact List.pairwise_singleton _ _
  | cons a rest ih =>
    obtain ⟨l, v⟩ := a
    have ha := List.pairwise_cons.mp h
    rw [Json.insertMember]
    by_cases hlt : key < l
    · rw [if_pos hlt]
      apply List.pairwise_cons.mpr
      refine ⟨?_, h⟩
      intro m hm
      cases List.mem_cons.mp hm with
      | inl he => exact he ▸ hlt
      | inr hm => exact String.lt_trans hlt (ha.1 m hm)
    rw [if_neg hlt]
    by_cases he : key = l
    · rw [if_pos he]
      exact List.pairwise_cons.mpr ⟨fun m hm => he ▸ ha.1 m hm, ha.2⟩
    · rw [if_neg he]
      apply List.pairwise_cons.mpr
      refine ⟨?_, ih ha.2⟩
      intro m hm
      cases mem_insertMember hm with
      | inl hm => exact hm ▸ lt_of_not_lt hlt he
      | inr hm => exact ha.1 m hm

theorem ordered_foldl_insertMember (h : Ordered rest) :
    Ordered (members.foldl (fun sorted m => insertMember m.1 m.2 sorted) rest) := by
  induction members generalizing rest with
  | nil => exact h
  | cons m members ih => exact ih h.insertMember

theorem ordered_sortMembers (members : List (String × Json)) : Ordered (sortMembers members) :=
  ordered_foldl_insertMember List.Pairwise.nil

theorem lookup_foldl_insertMember (k : String) :
    (members.foldl (fun sorted m => insertMember m.1 m.2 sorted) rest).lookup k =
      (members.reverse ++ rest).lookup k := by
  induction members generalizing rest with
  | nil => rfl
  | cons m members ih =>
    rw [List.foldl_cons, ih, List.lookup_append, lookup_insertMember, List.reverse_cons,
      List.append_assoc, List.lookup_append, List.singleton_append]
    by_cases h : k = m.1
    · rw [if_pos h, h, lookup_head]
    · rw [if_neg h, lookup_cons_ne h]

theorem lookup_sortMembers (k : String) :
    (sortMembers members).lookup k = members.reverse.lookup k := by
  rw [sortMembers, lookup_foldl_insertMember, List.append_nil]

theorem mem_foldl_insertMember {m : String × Json}
    (h : m ∈ members.foldl (fun sorted m => insertMember m.1 m.2 sorted) rest) :
    m ∈ members ∨ m ∈ rest := by
  induction members generalizing rest with
  | nil => exact .inr h
  | cons a members ih =>
    cases ih h with
    | inl h => exact .inl (List.mem_cons_of_mem _ h)
    | inr h =>
      cases mem_insertMember h with
      | inl h => exact .inl (h ▸ List.mem_cons_self)
      | inr h => exact .inr h

theorem mem_of_mem_sortMembers {m : String × Json} (h : m ∈ sortMembers members) : m ∈ members :=
  (mem_foldl_insertMember h).resolve_right List.not_mem_nil

theorem Ordered.lookup_reverse (h : Ordered members) (k : String) :
    members.reverse.lookup k = members.lookup k := by
  induction members with
  | nil => rfl
  | cons m members ih =>
    have hm := List.pairwise_cons.mp h
    rw [List.reverse_cons, List.lookup_append, ih hm.2]
    by_cases hk : k = m.1
    · rw [hk, lookup_of_lt hm.1, lookup_head, lookup_head]
      rfl
    · rw [lookup_cons_ne hk, lookup_cons_ne hk]
      simp

theorem Ordered.sortMembers_eq (h : Ordered members) : sortMembers members = members := by
  apply (ordered_sortMembers members).ext h
  intro k
  rw [lookup_sortMembers, h.lookup_reverse]

theorem Ordered.filter {p : String × Json → Bool} (h : Ordered members) :
    Ordered (members.filter p) :=
  List.Pairwise.filter p h

theorem lookup_filter_key (p : String → Bool) (k : String) :
    (members.filter fun m => p m.1).lookup k = if p k then members.lookup k else none := by
  induction members with
  | nil => simp
  | cons m members ih =>
    by_cases hm : p m.1
    · rw [List.filter_cons_of_pos (by simpa using hm)]
      by_cases hk : k = m.1
      · rw [hk, lookup_head, lookup_head, if_pos hm]
      · rw [lookup_cons_ne hk, lookup_cons_ne hk, ih]
    · rw [List.filter_cons_of_neg (by simpa using hm), ih]
      by_cases hk : k = m.1
      · rw [hk, if_neg hm, if_neg hm]
      · rw [lookup_cons_ne hk]

theorem filter_sortMembers (p : String → Bool) :
    (sortMembers members).filter (fun m => p m.1) = sortMembers (members.filter fun m => p m.1) := by
  apply (ordered_sortMembers members).filter.ext (ordered_sortMembers _)
  intro k
  rw [lookup_filter_key, lookup_sortMembers, lookup_sortMembers, ← List.filter_reverse,
    lookup_filter_key]

theorem sortMembers_congr (h : ∀ k, members.reverse.lookup k = rest.reverse.lookup k) :
    sortMembers members = sortMembers rest := by
  apply (ordered_sortMembers members).ext (ordered_sortMembers rest)
  intro k
  rw [lookup_sortMembers, lookup_sortMembers, h]

theorem sortMembers_sorted_append (a b : List (String × Json)) :
    sortMembers (sortMembers a ++ b) = sortMembers (a ++ b) := by
  apply sortMembers_congr
  intro k
  rw [List.reverse_append, List.reverse_append, List.lookup_append, List.lookup_append,
    (ordered_sortMembers a).lookup_reverse, lookup_sortMembers]

end ModelGraph.Json
