import ModelGraph.Index

namespace ModelGraph.Index

variable {α : Type}

theorem lookup_eq_some_iff {entries : List (Path × α)} (h : (entries.map Prod.fst).Nodup)
    {p : Path} {a : α} : entries.lookup p = some a ↔ (p, a) ∈ entries := by
  induction entries with
  | nil => simp
  | cons e entries ih =>
    obtain ⟨q, b⟩ := e
    simp only [List.map_cons, List.nodup_cons] at h
    by_cases hq : p = q
    · subst hq
      have hnot : (p, a) ∉ entries := fun hm => h.1 (List.mem_map_of_mem hm)
      simp only [List.lookup_cons_self, Option.some.injEq, List.mem_cons, Prod.mk.injEq, true_and,
        hnot, or_false]
      exact eq_comm
    · have hb : (p == q) = false := beq_eq_false_iff_ne.mpr hq
      rw [List.lookup_cons, hb]
      simp [ih h.2, hq]

theorem get?_eq_some_iff {x : Index α} {p : Path} {a : α} :
    x.get? p = some a ↔ (p, a) ∈ x.entries :=
  lookup_eq_some_iff x.nodup

theorem contains_eq_false_iff {x : Index α} {p : Path} : x.contains p = false ↔ x.get? p = none := by
  simp [contains]

@[simp]
theorem get?_empty (p : Path) : (empty : Index α).get? p = none := rfl

theorem lookup_put (p q : Path) (a : α) (entries : List (Path × α)) :
    (put p a entries).lookup q = if q = p then some a else entries.lookup q := by
  induction entries with
  | nil =>
    by_cases hq : q = p
    · simp [put, hq]
    · simp [put, hq, List.lookup_cons, beq_eq_false_iff_ne.mpr hq]
  | cons e entries ih =>
    obtain ⟨r, b⟩ := e
    rw [put]
    by_cases hr : r = p
    · subst hr
      by_cases hq : q = r
      · simp [hq]
      · simp [hq, List.lookup_cons, beq_eq_false_iff_ne.mpr hq]
    · rw [if_neg hr, List.lookup_cons, ih]
      by_cases hq : q = r
      · subst hq
        simp [hr]
      · simp [List.lookup_cons, beq_eq_false_iff_ne.mpr hq]

theorem get?_insert (p q : Path) (a : α) (x : Index α) :
    (x.insert p a).get? q = if q = p then some a else x.get? q :=
  lookup_put p q a x.entries

theorem get?_erase (p q : Path) (x : Index α) :
    (x.erase p).get? q = if q = p then none else x.get? q := by
  apply Option.ext
  intro a
  rw [get?_eq_some_iff, erase, List.mem_filter]
  by_cases hq : q = p
  · simp [hq]
  · simp [hq, get?_eq_some_iff]

theorem mem_values_iff {x : Index α} {a : α} : a ∈ x.values ↔ ∃ p, x.get? p = some a := by
  simp only [values, List.mem_map, get?_eq_some_iff]
  constructor
  · rintro ⟨⟨p, b⟩, hm, rfl⟩
    exact ⟨p, hm⟩
  · rintro ⟨p, hm⟩
    exact ⟨(p, a), hm, rfl⟩

theorem values_nodup {x : Index α}
    (h : ∀ p q a, x.get? p = some a → x.get? q = some a → p = q) : x.values.Nodup := by
  have hn := x.nodup
  rw [List.nodup_iff_pairwise_ne, List.pairwise_map] at hn
  rw [values, List.nodup_iff_pairwise_ne, List.pairwise_map]
  refine hn.imp_of_mem ?_
  rintro ⟨p, a⟩ ⟨q, b⟩ hp hq hne hab
  simp only at hab
  subst hab
  exact hne (h p q a (get?_eq_some_iff.mpr hp) (get?_eq_some_iff.mpr hq))

theorem put_of_new {p : Path} {a : α} {entries : List (Path × α)}
    (h : p ∉ entries.map Prod.fst) : put p a entries = entries ++ [(p, a)] := by
  induction entries with
  | nil => rfl
  | cons e entries ih =>
    rw [List.map_cons, List.mem_cons, not_or] at h
    rw [put, if_neg (Ne.symm h.1), ih h.2, List.cons_append]

theorem values_insert_of_free {x : Index α} {p : Path} (h : x.get? p = none) (a : α) :
    (x.insert p a).values = x.values ++ [a] := by
  have hnew : p ∉ x.entries.map Prod.fst := by
    intro hm
    obtain ⟨⟨q, b⟩, hb, rfl⟩ := List.mem_map.mp hm
    rw [get?_eq_some_iff.mpr hb] at h
    cases h
  have hinsert : (x.insert p a).entries = x.entries ++ [(p, a)] := put_of_new hnew
  rw [values, hinsert, List.map_append]
  rfl

theorem values_erase [DecidableEq α] {x : Index α} {p : Path} {a : α}
    (h : ∀ q b, x.get? q = some b → (b = a ↔ q = p)) :
    (x.erase p).values = x.values.filter (· ≠ a) := by
  rw [values, values, erase, List.filter_map]
  refine congrArg (List.map Prod.snd) (List.filter_congr ?_)
  rintro ⟨q, b⟩ hm
  exact decide_eq_decide.mpr (not_congr (h q b (get?_eq_some_iff.mpr hm)).symm)

end ModelGraph.Index
