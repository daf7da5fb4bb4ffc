import Mathlib.Data.List.Sort
import ModelGraph.Proofs.WalkOrder

namespace ModelGraph

/-- The first of two handles was given out before the other one. -/
def Handle.Before (h k : Handle) : Prop := h.slot < k.slot

instance : Std.Irrefl Handle.Before := ⟨fun h => Nat.lt_irrefl h.slot⟩

instance : Std.Antisymm Handle.Before :=
  ⟨fun _ _ hlt hgt => absurd (Nat.lt_trans hlt hgt) (Nat.lt_irrefl _)⟩

theorem Handle.pairwise_before_concat {hs : List Handle} {n : Nat} (hb : hs.Pairwise Before)
    (hn : ∀ h ∈ hs, h.slot < n) : List.Pairwise Before (hs ++ [⟨n⟩]) := by
  refine List.pairwise_append.mpr ⟨hb, List.pairwise_singleton _ _, fun h hm k hk => ?_⟩
  rw [List.mem_singleton.mp hk]
  exact hn h hm

namespace Graph

variable {g g' : Graph} {h : Handle} {e : Element}

/-- What is certain of the owners, the index and the roster of a graph, whatever names are given. -/
structure Enrolled (g : Graph) : Prop where
  forested : g.Forested
  sound : g.directory.Sound
  rostered : g.Rostered
  roster_before : (g.roster.map Prod.snd).Pairwise Handle.Before

/-- Every element that is alive is found at its path. -/
def Indexed (g : Graph) : Prop := ∀ h e, g.LiveAt h e → g.lookup e.path = some h

theorem complete_directory_iff : g.directory.Complete ↔ g.Indexed := by
  constructor
  · intro c h e hl
    exact c e.path h (livePath?_eq_some.mpr ⟨e, hl, rfl⟩)
  · intro i p h hp
    obtain ⟨e, hl, rfl⟩ := livePath?_eq_some.mp hp
    exact i h e hl

theorem WellFormed.indexed (w : g.WellFormed) : g.Indexed := fun _ _ hl => w.lookup_path hl

/-- The index misses nothing, and has the elements in the order in which they came. -/
structure IndexInOrder (g : Graph) : Prop where
  indexed : g.Indexed
  before : g.index.values.Pairwise Handle.Before

theorem Enrolled.liveAt_of_mem_values (t : g.Enrolled) (hm : h ∈ g.index.values) :
    ∃ e, g.LiveAt h e := by
  obtain ⟨p, hp⟩ := Index.mem_values_iff.mp hm
  obtain ⟨e, hl, -⟩ := livePath?_eq_some.mp (t.sound p h hp)
  exact ⟨e, hl⟩

theorem Enrolled.liveAt_of_mem_roster (t : g.Enrolled) (hm : h ∈ g.roster.map Prod.snd) :
    ∃ e, g.LiveAt h e := by
  obtain ⟨⟨k, h⟩, hpost, rfl⟩ := List.mem_map.mp hm
  obtain ⟨e, hl, -⟩ := (t.rostered.mem_iff k h).mp hpost
  exact ⟨e, hl⟩

theorem enrolled_empty (r : Registry) : ({ registry := r } : Graph).Enrolled where
  forested := forested_empty r
  sound := by
    intro p h hp
    cases (Index.get?_empty p).symm.trans hp
  rostered := rostered_empty r
  roster_before := .nil

theorem indexInOrder_empty (r : Registry) : ({ registry := r } : Graph).IndexInOrder where
  indexed h e hl := absurd hl (not_liveAt_empty r h e)
  before := .nil

section Push

variable {owner : Option Handle} {path : Path}
  (ho : ∀ o, owner = some o → ∃ p, g.LiveAt o p ∧ p.kind = .package) (hd : e.deleted = false)
include ho hd

theorem directory_push :
    (g.push e owner path).1.directory = g.directory.enter ⟨g.elements.size⟩ path := by
  have hpath : (g.push e owner path).1.livePath? =
      (g.directory.enter ⟨g.elements.size⟩ path).path? := by
    funext k
    refine Option.ext fun p => ?_
    simp only [livePath?_eq_some, liveAt_push_iff ho hd, Directory.enter]
    by_cases hk : k = ⟨g.elements.size⟩
    · rw [if_pos hk, Option.some.injEq]
      constructor
      · rintro ⟨x, ⟨-, rfl⟩ | ⟨y, hy, -⟩, rfl⟩
        · rfl
        · exact absurd hk hy.ne_next
      · rintro rfl
        exact ⟨_, .inl ⟨hk, rfl⟩, rfl⟩
    · rw [if_neg hk]
      refine Iff.trans ?_ livePath?_eq_some.symm
      constructor
      · rintro ⟨x, ⟨hn, -⟩ | ⟨y, hy, rfl⟩, rfl⟩
        · exact absurd hn hk
        · exact ⟨y, hy, (path_grown _ _ _ _).symm⟩
      · rintro ⟨y, hy, rfl⟩
        exact ⟨_, .inr ⟨y, hy, rfl⟩, path_grown _ _ _ _⟩
  rw [directory, hpath, index_push]
  rfl

theorem Enrolled.push (t : g.Enrolled) (hc : e.body.children = []) :
    (g.push e owner path).1.Enrolled where
  forested := t.forested.push ho hc hd
  sound := by
    rw [directory_push ho hd]
    refine t.sound.enter (Option.eq_none_iff_forall_ne_some.mpr fun p hp => ?_) path
    obtain ⟨x, hx, -⟩ := livePath?_eq_some.mp hp
    exact hx.ne_next rfl
  rostered := t.rostered.push ho hd
  roster_before := by
    rw [roster_push, List.map_append]
    refine Handle.pairwise_before_concat t.roster_before fun h hm => ?_
    obtain ⟨x, hx⟩ := t.liveAt_of_mem_roster hm
    exact slot_lt_of_element? hx.1

theorem IndexInOrder.push (i : g.IndexInOrder) (t : g.Enrolled) (hfree : g.lookup path = none) :
    (g.push e owner path).1.IndexInOrder where
  indexed := by
    rw [← complete_directory_iff, directory_push ho hd]
    exact (complete_directory_iff.mpr i.indexed).enter hfree
  before := by
    rw [index_push, Index.values_insert_of_free hfree]
    refine Handle.pairwise_before_concat i.before fun h hm => ?_
    obtain ⟨x, hx⟩ := t.liveAt_of_mem_values hm
    exact slot_lt_of_element? hx.1

end Push

/-- The graphs that come from a graph by retiring elements that are alive in it. -/
inductive Retires (g : Graph) : Graph → Prop
  | refl : Retires g g
  | retire {g' : Graph} {h : Handle} {e : Element} :
      Retires g g' → g.LiveAt h e → Retires g (g'.retire h e)

theorem directory_retire (g : Graph) (h : Handle) (e : Element) :
    (g.retire h e).directory = g.directory.leave h e.path := by
  have hpath : (g.retire h e).livePath? = (g.directory.leave h e.path).path? := by
    funext k
    refine Option.ext fun p => ?_
    simp only [livePath?_eq_some, liveAt_retire, Directory.leave]
    by_cases hk : k = h
    · rw [if_pos hk]
      refine ⟨?_, fun hn => by cases hn⟩
      rintro ⟨x, ⟨hne, -⟩, -⟩
      exact absurd hk hne
    · rw [if_neg hk]
      refine Iff.trans ?_ livePath?_eq_some.symm
      constructor
      · rintro ⟨x, ⟨-, y, hy, rfl⟩, rfl⟩
        exact ⟨y, hy, (thinned_shrunk _ _ _ _).path.symm⟩
      · rintro ⟨y, hy, rfl⟩
        exact ⟨_, ⟨hk, y, hy, rfl⟩, (thinned_shrunk _ _ _ _).path⟩
  rw [directory, hpath, index_retire]
  rfl

namespace Retires

variable (a : Retires g g')
include a

theorem thinned : Thinned 0 g g' := by
  induction a with
  | refl => exact .refl 0 g
  | retire _ _ ih => exact ih.trans ((thinned_retire _ _ _).mono (Nat.zero_le _))

theorem liveAt {x : Element} (hl : g'.LiveAt h x) : ∃ y, g.LiveAt h y ∧ y.Thinned x := by
  obtain ⟨y, hy, ht⟩ := a.thinned.exists_element hl.1
  have halive : y.deleted = false := by
    cases hd : y.deleted with
    | false => rfl
    | true => exact absurd (ht.deleted hd) (by rw [hl.2]; exact Bool.false_ne_true)
  exact ⟨y, ⟨hy, halive⟩, ht⟩

theorem retireTree (fuel : Nat) (h : Handle) : Retires g (retireTree fuel h g') := by
  induction fuel generalizing h g' with
  | zero => exact a
  | succ fuel ih =>
    rw [Graph.retireTree]
    cases he : g'.element? h with
    | none => exact a
    | some e =>
      by_cases hd : e.deleted = true
      · simp only [hd, if_true]
        exact a
      · simp only [hd, Bool.false_eq_true, if_false]
        -- What is read of the element to retire it is as it was in the first graph.
        obtain ⟨x, hx, ht⟩ := a.liveAt ⟨he, by simpa using hd⟩
        rw [retire_congr ht.path ht.kind ht.package]
        exact (List.foldlRecOn _ _ a fun g'' a' child _ => ih a' child).retire hx

theorem enrolled (t : g.Enrolled) : g'.Enrolled := by
  induction a with
  | refl => exact t
  | @retire g' h e a hl ih =>
    obtain ⟨y, hy, ht, -⟩ := a.thinned.element h e hl.1
    constructor
    case forested =>
      refine ih.forested.retire fun x hx => ?_
      rw [← Option.some.inj (hy.symm.trans hx), ht.package]
    case sound =>
      rw [directory_retire]
      refine ih.sound.leave fun p hp => ?_
      obtain ⟨x, hx, rfl⟩ := livePath?_eq_some.mp hp
      rw [← Option.some.inj (hy.symm.trans hx.1), ht.path]
    case rostered => exact ih.rostered.retire hy ht.kind.symm
    case roster_before =>
      rw [roster_retire]
      exact ih.roster_before.sublist (List.filter_sublist.map _)

/-- Elements that are alive in one graph have different paths there, so that none of them takes the
entry of another one along. -/
theorem indexInOrder (i : g.IndexInOrder) : g'.IndexInOrder := by
  induction a with
  | refl => exact i
  | @retire g' h e a hl ih =>
    constructor
    case indexed =>
      rw [← complete_directory_iff, directory_retire]
      refine (complete_directory_iff.mpr ih.indexed).leave fun k hk => ?_
      obtain ⟨x, hx, hpath⟩ := livePath?_eq_some.mp hk
      obtain ⟨y, hy, ht⟩ := a.liveAt hx
      have hlook := i.indexed k y hy
      rw [← ht.path, hpath, i.indexed h e hl] at hlook
      exact (Option.some.inj hlook).symm
    case before =>
      rw [index_retire]
      exact ih.before.sublist (List.filter_sublist.map _)

end Retires

theorem retires_delete (h : Handle) (g : Graph) : Retires g ((g.delete h).toOption.getD g) := by
  rw [delete]
  split
  · exact .refl
  · split
    · exact .refl
    · split
      · exact .refl
      · exact Retires.refl.retireTree g.fuel h

section Shifts

variable {hs : List Handle} (s : Directory.Shifts hs g.directory g'.directory)
include s

theorem Enrolled.shifts (t : g.Enrolled) (v : KeepsTies g g') (hr : g'.roster = g.roster) :
    g'.Enrolled where
  forested := t.forested.keepsTies v
  sound := s.sound t.sound
  rostered := by
    refine ⟨hr ▸ t.rostered.nodup, fun k h => ?_⟩
    rw [hr, t.rostered.mem_iff]
    exact (v.exists_liveAt_iff (fun kind _ => kind = k) h).symm
  roster_before := hr ▸ t.roster_before

/-- The same elements are in order before and after some of them move only if nothing changes. -/
theorem IndexInOrder.shifts_iff (i : g.IndexInOrder) (t : g.Enrolled) (hn : hs.Nodup) :
    g'.IndexInOrder ↔ hs <:+ g.index.values ∧ g'.Indexed := by
  have c := complete_directory_iff.mpr i.indexed
  constructor
  · intro i'
    have c' := complete_directory_iff.mpr i'.indexed
    refine ⟨(s.values_eq_iff hn t.sound c c').mp ?_, i'.indexed⟩
    refine i'.before.eq_of_mem_iff i.before fun h => ?_
    exact (Directory.mem_values_iff (s.sound t.sound) c').trans
      (s.exists_path?_iff.trans (Directory.mem_values_iff t.sound c).symm)
  · rintro ⟨hsuffix, i'⟩
    have hsame := (s.values_eq_iff hn t.sound c (complete_directory_iff.mpr i')).mpr hsuffix
    exact ⟨i', hsame.symm ▸ i.before⟩

end Shifts

end Graph
end ModelGraph
