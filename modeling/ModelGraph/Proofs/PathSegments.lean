import ModelGraph.Proofs.PathAlgebra

namespace ModelGraph.Path

variable {p : Path} {names : List String} {last n : String}

theorem cut_ne_nil (s : List Char) : cut s ≠ [] := by
  fun_cases cut s <;> exact List.cons_ne_nil _ _

theorem intercalate_cut (s : List Char) : [':', ':'].intercalate (cut s) = s := by
  fun_induction cut s with
  | case1 rest ih =>
    rw [List.intercalate_cons_of_ne_nil (cut_ne_nil rest), ih]
    rfl
  | case2 c rest _ hcut _ => exact absurd hcut (cut_ne_nil rest)
  | case3 c rest _ piece pieces hcut ih => rw [List.intercalate_cons_cons_left, ← hcut, ih]
  | case4 => rfl

theorem cut_intercalate {pieces : List (List Char)} (hne : pieces ≠ [])
    (hp : ∀ piece ∈ pieces, ':' ∉ piece) : cut ([':', ':'].intercalate pieces) = pieces := by
  induction pieces with
  | nil => exact absurd rfl hne
  | cons piece pieces ih =>
    have hpiece := hp piece List.mem_cons_self
    cases pieces with
    | nil => rw [List.intercalate_singleton, cut_of_no_colon hpiece]
    | cons next pieces =>
      have hrest := ih (List.cons_ne_nil next pieces) fun x hx => hp x (List.mem_cons_of_mem piece hx)
      rw [List.intercalate_cons_cons, List.append_assoc]
      exact (cut_append hpiece _).trans (congrArg (piece :: ·) hrest)

/-- A text that may be a name in a path: not empty, without colons and blanks. -/
structure Plain (name : String) : Prop where
  nonempty : name ≠ ""
  no_colon : ':' ∉ name.toList
  no_blank : ∀ c ∈ name.toList, Text.isBlank c = false

theorem isSegment_iff_plain : IsSegment n ↔ Plain n := by
  rw [IsSegment, segmentFault?_eq_none, Ne, String.toList_eq_nil_iff]
  constructor
  · rintro ⟨hn, hc, hb⟩
    exact ⟨hn, hc, hb⟩
  · intro h
    exact ⟨h.nonempty, h.no_colon, h.no_blank⟩

theorem map_toList_segments (p : Path) : p.segments.map String.toList = cut p.text.toList := by
  rw [segments, List.map_map]
  exact List.map_id'' (fun _ => String.toList_ofList) _

theorem segments_ne_nil (p : Path) : p.segments ≠ [] := by
  rw [segments, Ne, List.map_eq_nil_iff]
  exact cut_ne_nil _

theorem intercalate_segments (p : Path) : "::".intercalate p.segments = p.text := by
  apply String.toList_inj.mp
  rw [String.toList_intercalate, map_toList_segments]
  exact intercalate_cut _

theorem segments_intercalate (hne : names ≠ []) (hn : ∀ n ∈ names, ':' ∉ n.toList) :
    (⟨"::".intercalate names⟩ : Path).segments = names := by
  have hcut : cut ("::".intercalate names).toList = names.map String.toList := by
    rw [String.toList_intercalate]
    apply cut_intercalate (mt List.map_eq_nil_iff.mp hne)
    exact List.forall_mem_map.mpr hn
  rw [segments, hcut, List.map_map]
  exact List.map_id'' (fun _ => String.ofList_toList) _

theorem fault?_eq_none_iff_segments : p.fault? = none ↔ ∀ n ∈ p.segments, IsSegment n := by
  rw [fault?_eq_none, ← map_toList_segments]
  exact List.forall_mem_map

theorem fault?_eq_none_iff_exists_names : p.fault? = none ↔
    ∃ names, names ≠ [] ∧ (∀ n ∈ names, Plain n) ∧ p.text = "::".intercalate names := by
  rw [fault?_eq_none_iff_segments]
  constructor
  · intro h
    refine ⟨p.segments, p.segments_ne_nil, ?_, p.intercalate_segments.symm⟩
    exact fun n hn => isSegment_iff_plain.mp (h n hn)
  · rintro ⟨names, hne, hnames, ht⟩
    have hp : p = ⟨"::".intercalate names⟩ := congrArg Path.mk ht
    rw [hp, segments_intercalate hne fun n hn => (hnames n hn).no_colon]
    exact fun n hn => isSegment_iff_plain.mpr (hnames n hn)

theorem intercalate_concat (names : List String) (last : String) :
    (⟨"::".intercalate (names ++ [last])⟩ : Path) =
      join (if names = [] then none else some ⟨"::".intercalate names⟩) last := by
  by_cases hne : names = []
  · rw [if_pos hne, hne, List.nil_append, String.intercalate_singleton, join]
  · rw [if_neg hne, String.intercalate_append_of_ne_nil hne (List.cons_ne_nil _ _),
      String.intercalate_singleton, join, nest]

/-- The last segment of an accepted path is its name, and the others make its package. -/
theorem name_and_package?_of_segments (hf : p.fault? = none)
    (hs : p.segments = names ++ [last]) :
    p.name = last ∧ p.package? = if names = [] then none else some ⟨"::".intercalate names⟩ := by
  have hlast : IsSegment last := by
    refine fault?_eq_none_iff_segments.mp hf last ?_
    rw [hs]
    exact List.mem_append_right _ List.mem_cons_self
  have hp : p = join (if names = [] then none else some ⟨"::".intercalate names⟩) last := by
    rw [← intercalate_concat, ← hs, intercalate_segments]
  exact ⟨(congrArg name hp).trans (name_join hlast _),
    (congrArg package? hp).trans (package?_join hlast _)⟩

theorem isSegment_of_length_segments (hf : (⟨n⟩ : Path).fault? = none)
    (hl : (⟨n⟩ : Path).segments.length = 1) : IsSegment n := by
  obtain ⟨m, hm⟩ := List.length_eq_one_iff.mp hl
  have ht : m = n := by
    have h := intercalate_segments ⟨n⟩
    rwa [hm, String.intercalate_singleton] at h
  exact ht ▸ fault?_eq_none_iff_segments.mp hf m (by rw [hm]; exact List.mem_singleton_self m)

/-- The algebra of paths. Any text is put together again from its package and its name, and from its
segments. A path is accepted exactly if it is put together from names, and these are its segments;
then the last one is its name and the others make its package, if there are any. A name nested in an
accepted path is found again, and so is the path. -/
theorem paths_compose (p : Path) :
    join p.package? p.name = p ∧
    "::".intercalate p.segments = p.text ∧
    (p.fault? = none ↔
      ∃ names, names ≠ [] ∧ (∀ n ∈ names, Plain n) ∧ p.text = "::".intercalate names) ∧
    (∀ names, names ≠ [] → (∀ n ∈ names, Plain n) → p.text = "::".intercalate names →
      p.segments = names) ∧
    (p.fault? = none → p.segments.getLast? = some p.name ∧
      p.package? = if p.segments.length = 1 then none
        else some ⟨"::".intercalate p.segments.dropLast⟩) ∧
    (p.fault? = none → ∀ n, (⟨n⟩ : Path).fault? = none → (⟨n⟩ : Path).segments.length = 1 →
      (p.nest n).name = n ∧ (p.nest n).package? = some p ∧ (p.nest n).fault? = none) := by
  refine ⟨join_package?_name p, intercalate_segments p, fault?_eq_none_iff_exists_names, ?_, ?_, ?_⟩
  · intro names hne hplain ht
    have hp : p = ⟨"::".intercalate names⟩ := congrArg Path.mk ht
    rw [hp]
    exact segments_intercalate hne fun n hn => (hplain n hn).no_colon
  · intro hf
    obtain ⟨names, last, hs⟩ : ∃ names last, p.segments = names ++ [last] :=
      ⟨_, _, (List.dropLast_concat_getLast p.segments_ne_nil).symm⟩
    obtain ⟨hname, hpackage⟩ := name_and_package?_of_segments hf hs
    have hone : (names ++ [last]).length = 1 ↔ names = [] := by simp
    simp only [hs, hname, hpackage, List.getLast?_concat, List.dropLast_concat, hone, true_and]
  · intro hf n hn hl
    have hsegment := isSegment_of_length_segments hn hl
    refine ⟨name_nest hsegment p, package?_nest hsegment p, ?_⟩
    exact fault?_join (o := some p) (fun q hq => Option.some.inj hq ▸ hf) hsegment

/-- With a colon at the edge of a segment the two ways of cutting a text do not agree. -/
example : (⟨"a:::b"⟩ : Path).segments = ["a", ":b"] ∧ (⟨"a:::b"⟩ : Path).name = "b" ∧
    (⟨"a:::b"⟩ : Path).package? = some ⟨"a:"⟩ := by decide

end ModelGraph.Path
