import Mathlib.Data.List.Forall2
import ModelGraph.Mismatch
import ModelGraph.Proofs.Removals
import ModelGraph.Proofs.Differences
import ModelGraph.Proofs.EntityOrder

namespace ModelGraph

open ModelGraph.Graph

variable {m m' : Model} {e a : Entity} {p : Path} {x : Mismatch}

theorem mem_canonical : e ∈ m.canonical ↔ ∃ w ∈ m, w.canonical = e := by
  rw [Model.canonical, Model.mem_sorted, List.mem_map]

theorem mem_paths_canonical : p ∈ m.canonical.map Entity.path ↔ p ∈ m.map Entity.path := by
  simp only [List.mem_map, mem_canonical]
  constructor
  · rintro ⟨_, ⟨w, hw, rfl⟩, hp⟩
    exact ⟨w, hw, hp⟩
  · rintro ⟨w, hw, hp⟩
    exact ⟨w.canonical, ⟨w, hw, rfl⟩, hp⟩

theorem nodup_canonical (hn : (m.map Entity.path).Nodup) : (m.canonical.map Entity.path).Nodup := by
  apply Model.nodup_sorted
  rw [List.map_map]
  exact hn

theorem ascending_canonical (hn : (m.map Entity.path).Nodup) :
    Path.Ascending (m.canonical.map Entity.path) :=
  Path.ascending_of_le (List.pairwise_map.mpr (Model.ascending_sorted _)) (nodup_canonical hn)

theorem find?_path_eq_none :
    m.reverse.find? (·.path == p) = none ↔ p ∉ m.map Entity.path := by
  rw [List.find?_eq_none, List.mem_map]
  simp only [List.mem_reverse, beq_iff_eq, not_exists, not_and]

theorem find?_path_eq_some (hn : (m.map Entity.path).Nodup) :
    m.reverse.find? (·.path == p) = some a ↔ a ∈ m ∧ a.path = p := by
  constructor
  · intro h
    exact ⟨List.mem_reverse.mp (List.mem_of_find?_eq_some h), by simpa using List.find?_some h⟩
  · rintro ⟨ha, rfl⟩
    cases hf : m.reverse.find? (·.path == a.path) with
    | none => exact absurd (List.mem_map_of_mem ha) (find?_path_eq_none.mp hf)
    | some b =>
      have hb := List.mem_reverse.mp (List.mem_of_find?_eq_some hf)
      rw [List.inj_on_of_nodup_map hn hb ha (by simpa using List.find?_some hf)]

namespace Mismatch

theorem ofExpected?_of_notMem (hp : e.path ∉ m.map Entity.path) :
    ofExpected? m e = some (.missing e.path) := by
  rw [ofExpected?, find?_path_eq_none.mpr hp]

theorem ofExpected?_of_mem (hn : (m.map Entity.path).Nodup) (ha : a ∈ m) (hp : a.path = e.path) :
    ofExpected? m e = if e.agrees a then none else some (.changed e.path e a) := by
  rw [ofExpected?, (find?_path_eq_some hn).mpr ⟨ha, hp⟩, Entity.agrees_comm e a]

theorem ofActual?_eq_some :
    ofActual? m a = some x ↔ a.path ∉ m.map Entity.path ∧ x = .unexpected a.path := by
  have hany : (m.any fun e => e.path == a.path) = true ↔ a.path ∈ m.map Entity.path := by
    simp only [List.any_eq_true, beq_iff_eq, List.mem_map]
  rw [ofActual?]
  by_cases hp : a.path ∈ m.map Entity.path
  · rw [if_pos (hany.mpr hp)]
    simp [hp]
  · rw [if_neg (mt hany.mp hp), Option.some.injEq, eq_comm]
    exact (and_iff_right hp).symm

/-- What is wrong between expected and actual entities. -/
inductive Found (expected actual : Model) : Mismatch → Prop
  | missing {e : Entity} (he : e ∈ expected) (hp : e.path ∉ actual.map Entity.path) :
    Found expected actual (.missing e.path)
  | changed {e a : Entity} (he : e ∈ expected) (ha : a ∈ actual) (hp : a.path = e.path)
    (hc : e.agrees a = false) : Found expected actual (.changed e.path e a)
  | unexpected {a : Entity} (ha : a ∈ actual) (hp : a.path ∉ expected.map Entity.path) :
    Found expected actual (.unexpected a.path)

variable {expected actual : Model}

theorem found_missing : Found expected actual (.missing p) ↔
    p ∈ expected.map Entity.path ∧ p ∉ actual.map Entity.path := by
  constructor
  · intro h
    cases h with
    | missing he hp => exact ⟨List.mem_map_of_mem he, hp⟩
  · rintro ⟨hmem, hp⟩
    obtain ⟨e, he, rfl⟩ := List.mem_map.mp hmem
    exact .missing he hp

theorem found_unexpected : Found expected actual (.unexpected p) ↔
    p ∉ expected.map Entity.path ∧ p ∈ actual.map Entity.path := by
  constructor
  · intro h
    cases h with
    | unexpected ha hp => exact ⟨hp, List.mem_map_of_mem ha⟩
  · rintro ⟨hp, hmem⟩
    obtain ⟨a, ha, rfl⟩ := List.mem_map.mp hmem
    exact .unexpected ha hp

theorem found_changed : Found expected actual (.changed p e a) ↔
    e ∈ expected ∧ a ∈ actual ∧ e.path = p ∧ a.path = p ∧ e.agrees a = false := by
  constructor
  · intro h
    cases h with
    | changed he ha hp hc => exact ⟨he, ha, rfl, hp, hc⟩
  · rintro ⟨he, ha, rfl, hp, hc⟩
    exact .changed he ha hp hc

theorem found_of_ofExpected? (hn : (actual.map Entity.path).Nodup) (he : e ∈ expected)
    (hx : ofExpected? actual e = some x) : Found expected actual x ∧ x.path = e.path ∧
      ∀ p, x ≠ .unexpected p := by
  by_cases hp : e.path ∈ actual.map Entity.path
  · obtain ⟨a, ha, hp⟩ := List.mem_map.mp hp
    rw [ofExpected?_of_mem hn ha hp] at hx
    split at hx
    · cases hx
    next hc =>
      cases hx
      exact ⟨.changed he ha hp (Bool.eq_false_iff.mpr hc), rfl, nofun⟩
  · rw [ofExpected?_of_notMem hp] at hx
    cases hx
    exact ⟨.missing he hp, rfl, nofun⟩

end Mismatch

open Mismatch

variable {expected actual : Model}

theorem mem_mismatches (hn : (actual.map Entity.path).Nodup) :
    x ∈ expected.mismatches actual ↔ Found expected.canonical actual.canonical x := by
  have hn' := nodup_canonical hn
  rw [Model.mismatches, List.mem_append, List.mem_filterMap, List.mem_filterMap]
  constructor
  · rintro (⟨e, he, hx⟩ | ⟨a, ha, hx⟩)
    · exact (found_of_ofExpected? hn' he hx).1
    · obtain ⟨hp, rfl⟩ := ofActual?_eq_some.mp hx
      exact .unexpected ha hp
  · intro h
    cases h with
    | missing he hp => exact .inl ⟨_, he, ofExpected?_of_notMem hp⟩
    | changed he ha hp hc =>
      refine .inl ⟨_, he, ?_⟩
      rw [ofExpected?_of_mem hn' ha hp, hc]
      rfl
    | unexpected ha hp => exact .inr ⟨_, ha, ofActual?_eq_some.mpr ⟨hp, rfl⟩⟩

theorem mismatches_eq_nil_iff (hn : (actual.map Entity.path).Nodup) :
    expected.mismatches actual = [] ↔ ∀ x, ¬Found expected.canonical actual.canonical x := by
  rw [List.eq_nil_iff_forall_not_mem]
  exact forall_congr' fun x => not_congr (mem_mismatches hn)

theorem exists_of_forall₂ {α β : Type} {R : α → β → Prop} {l : List α} {l' : List β}
    (h : List.Forall₂ R l l') : ∀ x ∈ l, ∃ y ∈ l', R x y := by
  induction h with
  | nil => exact fun x hx => absurd hx List.not_mem_nil
  | cons hxy _ ih =>
    refine List.forall_mem_cons.mpr ⟨⟨_, List.mem_cons_self, hxy⟩, fun x hx => ?_⟩
    obtain ⟨y, hy, hr⟩ := ih x hx
    exact ⟨y, List.mem_cons_of_mem _ hy, hr⟩

theorem forall₂_of_map_eq {α β : Type} {R : α → α → Prop} {f : α → β} {l l' : List α}
    (hl : l.map f = l'.map f) (h : ∀ x ∈ l, ∀ y ∈ l', f x = f y → R x y) :
    List.Forall₂ R l l' := by
  induction l generalizing l' with
  | nil =>
    rw [List.map_eq_nil_iff.mp hl.symm]
    exact .nil
  | cons x l ih =>
    obtain ⟨y, rest, rfl, hy, hrest⟩ := List.map_eq_cons_iff.mp hl.symm
    refine .cons (h x List.mem_cons_self y List.mem_cons_self hy.symm) (ih hrest.symm ?_)
    exact fun a ha b hb => h a (List.mem_cons_of_mem x ha) b (List.mem_cons_of_mem y hb)

/-- Between two models by ascending path, nothing is wrong exactly if they are equal. -/
theorem forall₂_agrees_iff (hm : Path.Ascending (expected.map Entity.path))
    (hm' : Path.Ascending (actual.map Entity.path)) :
    List.Forall₂ (fun e a => e.agrees a = true) expected actual ↔
      ∀ x, ¬Found expected actual x := by
  constructor
  · intro h x hx
    cases hx with
    | @missing e he hp =>
      obtain ⟨a, ha, hagrees⟩ := exists_of_forall₂ h e he
      exact hp (List.mem_map.mpr ⟨a, ha, (Entity.agrees_iff.mp hagrees).1.symm⟩)
    | @changed e a he ha hp hc =>
      obtain ⟨b, hb, hagrees⟩ := exists_of_forall₂ h e he
      have hpath : b.path = a.path := (Entity.agrees_iff.mp hagrees).1.symm.trans hp.symm
      rw [← List.inj_on_of_nodup_map hm'.nodup hb ha hpath, hagrees] at hc
      cases hc
    | @unexpected a ha hp =>
      obtain ⟨e, he, hagrees⟩ := exists_of_forall₂ h.flip a ha
      exact hp (List.mem_map.mpr ⟨e, he, (Entity.agrees_iff.mp hagrees).1⟩)
  · intro h
    have hpaths : ∀ p, p ∈ expected.map Entity.path ↔ p ∈ actual.map Entity.path := by
      intro p
      constructor
      · intro hp
        obtain ⟨e, he, rfl⟩ := List.mem_map.mp hp
        exact Classical.byContradiction fun hnot => h _ (.missing he hnot)
      · intro hp
        obtain ⟨a, ha, rfl⟩ := List.mem_map.mp hp
        exact Classical.byContradiction fun hnot => h _ (.unexpected ha hnot)
    refine forall₂_of_map_eq (hm.eq_of_mem_iff hm' hpaths) fun e he a ha hp => ?_
    exact Bool.of_not_eq_false fun hc => h _ (.changed he ha hp.symm hc)

theorem ascending_filterMap {f : Entity → Option Mismatch}
    (hm : Path.Ascending (m.map Entity.path))
    (hf : ∀ e ∈ m, ∀ x, f e = some x → x.path = e.path) :
    Path.Ascending ((m.filterMap f).map Mismatch.path) := by
  refine List.pairwise_map.mpr (List.pairwise_filterMap.mpr ((List.pairwise_map.mp hm).imp_of_mem ?_))
  intro e e' he he' hlt x hx x' hx'
  rwa [hf e he x hx, hf e' he' x' hx']

theorem mismatches_ordered (hm : Path.Ascending (expected.map Entity.path))
    (hm' : Path.Ascending (actual.map Entity.path)) :
    Path.Ascending ((expected.filterMap (ofExpected? actual)).map Mismatch.path) ∧
      Path.Ascending ((actual.filterMap (ofActual? expected)).map Mismatch.path) ∧
      ((expected.filterMap (ofExpected? actual) ++ actual.filterMap (ofActual? expected)).map
        Mismatch.path).Nodup := by
  have hfirst : Path.Ascending ((expected.filterMap (ofExpected? actual)).map Mismatch.path) :=
    ascending_filterMap hm fun e he x hx => (found_of_ofExpected? hm'.nodup he hx).2.1
  have hrest : Path.Ascending ((actual.filterMap (ofActual? expected)).map Mismatch.path) := by
    refine ascending_filterMap hm' fun a _ x hx => ?_
    rw [(ofActual?_eq_some.mp hx).2]
    rfl
  refine ⟨hfirst, hrest, ?_⟩
  rw [List.map_append]
  refine List.nodup_append'.mpr ⟨hfirst.nodup, hrest.nodup, ?_⟩
  intro p hp hp'
  obtain ⟨x, hx, rfl⟩ := List.mem_map.mp hp
  obtain ⟨y, hy, heq⟩ := List.mem_map.mp hp'
  obtain ⟨e, he, hx⟩ := List.mem_filterMap.mp hx
  obtain ⟨a, -, hy⟩ := List.mem_filterMap.mp hy
  obtain ⟨hnot, rfl⟩ := ofActual?_eq_some.mp hy
  rw [(found_of_ofExpected? hm'.nodup he hx).2.1] at heq
  exact hnot (List.mem_map.mpr ⟨e, he, heq.symm⟩)

/-- The comparison of two models in which each path stands once tells whether their canonical forms
are equal. Each path is reported once at most: as missing where the former model alone has it, as
unexpected where the latter alone has it, and as changed, with the two canonical entities, where
these differ. What is missing or changed comes by ascending path, and then what is unexpected. -/
theorem mismatches_exact (hn : (expected.map Entity.path).Nodup)
    (hn' : (actual.map Entity.path).Nodup) :
    (expected.mismatches actual = [] ↔
      List.Forall₂ (fun e a => e.agrees a = true) expected.canonical actual.canonical) ∧
    ((expected.mismatches actual).map Mismatch.path).Nodup ∧
    (∀ p, .missing p ∈ expected.mismatches actual ↔
      p ∈ expected.map Entity.path ∧ p ∉ actual.map Entity.path) ∧
    (∀ p, .unexpected p ∈ expected.mismatches actual ↔
      p ∉ expected.map Entity.path ∧ p ∈ actual.map Entity.path) ∧
    (∀ p e a, .changed p e a ∈ expected.mismatches actual ↔ e ∈ expected.canonical ∧
      a ∈ actual.canonical ∧ e.path = p ∧ a.path = p ∧ e.agrees a = false) ∧
    ∃ found rest, expected.mismatches actual = found ++ rest ∧
      (∀ x ∈ found, ∀ p, x ≠ .unexpected p) ∧ (∀ x ∈ rest, ∃ p, x = .unexpected p) ∧
      Path.Ascending (found.map Mismatch.path) ∧ Path.Ascending (rest.map Mismatch.path) := by
  have ha := ascending_canonical hn
  have ha' := ascending_canonical hn'
  have hmem {x : Mismatch} : x ∈ expected.mismatches actual ↔
      Found expected.canonical actual.canonical x := mem_mismatches hn'
  obtain ⟨hfound, hrest, hnodup⟩ := mismatches_ordered ha ha'
  refine ⟨?_, hnodup, ?_, ?_, ?_, _, _, rfl, ?_, ?_, hfound, hrest⟩
  · rw [mismatches_eq_nil_iff hn', forall₂_agrees_iff ha ha']
  · intro p
    rw [hmem, found_missing, mem_paths_canonical, mem_paths_canonical]
  · intro p
    rw [hmem, found_unexpected, mem_paths_canonical, mem_paths_canonical]
  · intro p e a
    rw [hmem, found_changed]
  · intro x hx
    obtain ⟨e, he, hx⟩ := List.mem_filterMap.mp hx
    exact (found_of_ofExpected? ha'.nodup he hx).2.2
  · intro x hx
    obtain ⟨a, -, hx⟩ := List.mem_filterMap.mp hx
    exact ⟨a.path, (ofActual?_eq_some.mp hx).2⟩

def classAt (path : Path) (name : String) : Entity where
  path := path
  classifier := "meta::pure::metamodel::type::Class"
  content := .obj [("_type", .str "class"), ("name", .str name)]

theorem mismatches_exact_classes :
    .missing ⟨"A"⟩ ∈ Model.mismatches [classAt ⟨"A"⟩ "A", classAt ⟨"B"⟩ "B"]
        [classAt ⟨"C"⟩ "C", classAt ⟨"B"⟩ "B2"] ∧
      .unexpected ⟨"C"⟩ ∈ Model.mismatches [classAt ⟨"A"⟩ "A", classAt ⟨"B"⟩ "B"]
        [classAt ⟨"C"⟩ "C", classAt ⟨"B"⟩ "B2"] := by
  obtain ⟨-, -, hmissing, hunexpected, -⟩ := @mismatches_exact
    [classAt ⟨"A"⟩ "A", classAt ⟨"B"⟩ "B"] [classAt ⟨"C"⟩ "C", classAt ⟨"B"⟩ "B2"]
      (by decide) (by decide)
  exact ⟨(hmissing ⟨"A"⟩).mpr (by decide), (hunexpected ⟨"C"⟩).mpr (by decide)⟩

end ModelGraph
