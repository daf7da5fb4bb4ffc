import Mathlib.Data.List.Sort
import ModelGraph.Diff
import ModelGraph.Proofs.IndexLaws

namespace ModelGraph

namespace Index

variable {α : Type} {x : Index α} {p : Path}

theorem mem_paths_iff : p ∈ x.paths ↔ ∃ a, x.get? p = some a := by
  constructor
  · intro hp
    obtain ⟨⟨q, a⟩, ha, rfl⟩ := List.mem_map.mp hp
    exact ⟨a, get?_eq_some_iff.mpr ha⟩
  · rintro ⟨a, ha⟩
    exact List.mem_map_of_mem (get?_eq_some_iff.mp ha)

end Index

namespace Path

variable {ps qs : List Path}

def Ascending (ps : List Path) : Prop := ps.Pairwise fun p q => p.text < q.text

theorem ascending_of_le (hle : ps.Pairwise fun p q => p.text ≤ q.text) (hn : ps.Nodup) :
    Ascending ps := by
  refine hle.imp₂ ?_ (List.nodup_iff_pairwise_ne.mp hn)
  intro p q hpq hne
  exact Std.lt_of_le_of_ne hpq fun h => hne (congrArg Path.mk h)

theorem Ascending.nodup (h : Ascending ps) : ps.Nodup := by
  refine List.nodup_iff_pairwise_ne.mpr (h.imp ?_)
  rintro p _ hlt rfl
  exact String.lt_irrefl _ hlt

theorem mem_sort {p : Path} : p ∈ sort ps ↔ p ∈ ps := List.mem_mergeSort

theorem ascending_sort (hn : ps.Nodup) : Ascending (sort ps) := by
  refine ascending_of_le ?_ ((List.mergeSort_perm ps _).nodup_iff.mpr hn)
  refine (List.pairwise_mergeSort ?_ ?_ ps).imp of_decide_eq_true
  · intro p q o hpq hqo
    exact decide_eq_true (String.le_trans (of_decide_eq_true hpq) (of_decide_eq_true hqo))
  · intro p q
    simpa using String.le_total p.text q.text

theorem Ascending.eq_of_mem_iff (h : Ascending ps) (h' : Ascending qs)
    (hm : ∀ p, p ∈ ps ↔ p ∈ qs) : ps = qs := by
  have hirrefl : Std.Irrefl fun p q : Path => p.text < q.text :=
    ⟨fun p => String.lt_irrefl p.text⟩
  have hantisymm : Std.Antisymm fun p q : Path => p.text < q.text :=
    ⟨fun _ _ hpq hqp => absurd (String.lt_trans hpq hqp) (String.lt_irrefl _)⟩
  exact List.Pairwise.eq_of_mem_iff h h' hm

end Path

namespace Diff

variable {x x' y y' : Index Digest} {d d' : Diff} {p : Path}

def reverse (d : Diff) : Diff := { added := d.removed, removed := d.added, modified := d.modified }

def Omits (d : Diff) (p : Path) : Prop := p ∉ d.added ∧ p ∉ d.removed ∧ p ∉ d.modified

/-- A difference that lists, in ascending order, the paths of `y` alone, those of `x` alone and those
at which both have digests, but not the same one. -/
structure Tells (x y : Index Digest) (d : Diff) : Prop where
  added_ascending : Path.Ascending d.added
  removed_ascending : Path.Ascending d.removed
  modified_ascending : Path.Ascending d.modified
  mem_added : ∀ p, p ∈ d.added ↔ x.get? p = none ∧ ∃ b, y.get? p = some b
  mem_removed : ∀ p, p ∈ d.removed ↔ (∃ a, x.get? p = some a) ∧ y.get? p = none
  mem_modified : ∀ p, p ∈ d.modified ↔ ∃ a b, x.get? p = some a ∧ y.get? p = some b ∧ a ≠ b

theorem mem_paths_without (x y : Index Digest) (p : Path) :
    p ∈ y.paths.filter (fun p => !x.contains p) ↔ x.get? p = none ∧ ∃ b, y.get? p = some b := by
  rw [List.mem_filter, Index.mem_paths_iff, Bool.not_eq_true', Index.contains_eq_false_iff, and_comm]

theorem mem_entries_changed (x y : Index Digest) (p : Path) :
    p ∈ (y.entries.filter fun e => (x.get? e.1).any (· ≠ e.2)).map Prod.fst ↔
      ∃ a b, x.get? p = some a ∧ y.get? p = some b ∧ a ≠ b := by
  simp only [List.mem_map, List.mem_filter, Option.any_eq_true, decide_eq_true_eq]
  constructor
  · rintro ⟨⟨q, b⟩, ⟨hb, a, ha, hne⟩, rfl⟩
    exact ⟨a, b, ha, Index.get?_eq_some_iff.mpr hb, hne⟩
  · rintro ⟨a, b, ha, hb, hne⟩
    exact ⟨(p, b), ⟨Index.get?_eq_some_iff.mp hb, a, ha, hne⟩, rfl⟩

theorem tells_between (x y : Index Digest) : Tells x y (between x y) where
  added_ascending := Path.ascending_sort (y.nodup.filter _)
  removed_ascending := Path.ascending_sort (x.nodup.filter _)
  modified_ascending := Path.ascending_sort (y.nodup.sublist (List.filter_sublist.map _))
  mem_added p := Path.mem_sort.trans (mem_paths_without x y p)
  mem_removed p := Path.mem_sort.trans ((mem_paths_without y x p).trans and_comm)
  mem_modified p := Path.mem_sort.trans (mem_entries_changed x y p)

namespace Tells

theorem unique (t : Tells x y d) (t' : Tells x y d') : d = d' := by
  have hadded : d.added = d'.added := t.added_ascending.eq_of_mem_iff t'.added_ascending
    fun p => (t.mem_added p).trans (t'.mem_added p).symm
  have hremoved : d.removed = d'.removed := t.removed_ascending.eq_of_mem_iff t'.removed_ascending
    fun p => (t.mem_removed p).trans (t'.mem_removed p).symm
  have hmodified : d.modified = d'.modified :=
    t.modified_ascending.eq_of_mem_iff t'.modified_ascending
      fun p => (t.mem_modified p).trans (t'.mem_modified p).symm
  cases d
  cases d'
  rw [Diff.mk.injEq]
  exact ⟨hadded, hremoved, hmodified⟩

theorem congr (t : Tells x y d) (hx : ∀ p, x'.get? p = x.get? p) (hy : ∀ p, y'.get? p = y.get? p) :
    Tells x' y' d where
  added_ascending := t.added_ascending
  removed_ascending := t.removed_ascending
  modified_ascending := t.modified_ascending
  mem_added p := by rw [t.mem_added, hx, hy]
  mem_removed p := by rw [t.mem_removed, hx, hy]
  mem_modified p := by rw [t.mem_modified, hx, hy]

theorem reverse (t : Tells x y d) : Tells y x d.reverse where
  added_ascending := t.removed_ascending
  removed_ascending := t.added_ascending
  modified_ascending := t.modified_ascending
  mem_added p := (t.mem_removed p).trans and_comm
  mem_removed p := (t.mem_added p).trans and_comm
  mem_modified p := by
    refine (t.mem_modified p).trans ⟨?_, ?_⟩
    · rintro ⟨a, b, ha, hb, hne⟩
      exact ⟨b, a, hb, ha, hne.symm⟩
    · rintro ⟨b, a, hb, ha, hne⟩
      exact ⟨a, b, ha, hb, hne.symm⟩

theorem omits_iff (t : Tells x y d) : d.Omits p ↔ x.get? p = y.get? p := by
  rw [Omits, t.mem_added, t.mem_removed, t.mem_modified]
  cases x.get? p with
  | none => cases y.get? p <;> simp
  | some a => cases y.get? p <;> simp

end Tells

theorem isEmpty_iff : d.isEmpty = true ↔ ∀ p, d.Omits p := by
  simp only [isEmpty, Bool.and_eq_true, List.isEmpty_iff, Omits, List.eq_nil_iff_forall_not_mem,
    forall_and, and_assoc]

theorem eq_empty_iff : d = {} ↔ d.isEmpty = true := by
  obtain ⟨added, removed, modified⟩ := d
  simp [isEmpty, and_assoc]

theorem isEmpty_between : (between x y).isEmpty = true ↔ ∀ p, x.get? p = y.get? p :=
  isEmpty_iff.trans (forall_congr' fun _ => (tells_between x y).omits_iff)

/-- A difference between two indexes is exact, it depends on the indexes as maps alone, it is the
reverse of that in the other direction, and it lists nothing only if the maps are the same. What is
neither listed from one index to the next nor from there to a third is not listed from the first to
the third. -/
theorem between_exact (x y : Index Digest) :
    Tells x y (between x y) ∧
    (∀ x' y', (∀ p, x'.get? p = x.get? p) → (∀ p, y'.get? p = y.get? p) →
      between x' y' = between x y) ∧
    between y x = (between x y).reverse ∧
    ((between x y).isEmpty = true ↔ ∀ p, x.get? p = y.get? p) ∧
    ∀ z p, (between x y).Omits p → (between y z).Omits p → (between x z).Omits p := by
  have t := tells_between x y
  refine ⟨t, ?_, (tells_between y x).unique t.reverse, isEmpty_between, ?_⟩
  · intro x' y' hx hy
    exact (tells_between x' y').unique (t.congr hx hy)
  · intro z p hxy hyz
    rw [t.omits_iff] at hxy
    rw [(tells_between y z).omits_iff] at hyz
    exact (tells_between x z).omits_iff.mpr (hxy.trans hyz)

end Diff
end ModelGraph
