import ModelGraph.Element
import ModelGraph.Proofs.IndexLaws

namespace ModelGraph

/-- An index, and the paths of the handles that it is for. -/
structure Directory where
  index : Index Handle
  path? : Handle → Option Path

namespace Directory

variable {d d' d'' : Directory} {h k : Handle} {hs ks : List Handle} {old new p : Path}

def Sound (d : Directory) : Prop := ∀ p h, d.index.get? p = some h → d.path? h = some p

def Complete (d : Directory) : Prop := ∀ p h, d.path? h = some p → d.index.get? p = some h

theorem mem_values_iff (s : d.Sound) (c : d.Complete) :
    h ∈ d.index.values ↔ ∃ p, d.path? h = some p := by
  rw [Index.mem_values_iff]
  constructor
  · rintro ⟨p, hp⟩
    exact ⟨p, s p h hp⟩
  · rintro ⟨p, hp⟩
    exact ⟨p, c p h hp⟩

theorem Sound.values_nodup (s : d.Sound) : d.index.values.Nodup := by
  apply Index.values_nodup
  intro p q h hp hq
  exact Option.some.inj ((s p h hp).symm.trans (s q h hq))

def enter (h : Handle) (new : Path) (d : Directory) : Directory where
  index := d.index.insert new h
  path? := fun k => if k = h then some new else d.path? k

def leave (h : Handle) (old : Path) (d : Directory) : Directory where
  index := d.index.erase old
  path? := fun k => if k = h then none else d.path? k

def shift (h : Handle) (old new : Path) (d : Directory) : Directory := (d.leave h old).enter h new

theorem Sound.enter (s : d.Sound) (hp : d.path? h = none) (new : Path) : (d.enter h new).Sound := by
  intro p k hk
  rw [Directory.enter, Index.get?_insert] at hk
  split at hk
  · next hnew =>
    rw [← Option.some.inj hk, hnew]
    exact if_pos rfl
  · have hkh : k ≠ h := by
      rintro rfl
      rw [s p k hk] at hp
      cases hp
    exact (if_neg hkh).trans (s p k hk)

theorem Sound.leave (s : d.Sound) (hp : ∀ p, d.path? h = some p → p = old) :
    (d.leave h old).Sound := by
  intro p k hk
  rw [Directory.leave, Index.get?_erase] at hk
  split at hk
  · cases hk
  · next hne =>
    have hkh : k ≠ h := by
      rintro rfl
      exact hne (hp p (s p k hk))
    exact (if_neg hkh).trans (s p k hk)

theorem Complete.enter (c : d.Complete) (hfree : d.index.get? new = none) :
    (d.enter h new).Complete := by
  intro p k hk
  rw [Directory.enter, Index.get?_insert]
  by_cases hkh : k = h
  · subst hkh
    rw [if_pos (Option.some.inj ((if_pos rfl).symm.trans hk)).symm]
  · have hget := c p k ((if_neg hkh).symm.trans hk)
    rw [if_neg, hget]
    rintro rfl
    rw [hget] at hfree
    cases hfree

theorem Complete.leave (c : d.Complete) (hp : ∀ k, d.path? k = some old → k = h) :
    (d.leave h old).Complete := by
  intro p k hk
  have hkh : k ≠ h := by
    rintro rfl
    cases (if_pos rfl).symm.trans hk
  have hkp := (if_neg hkh).symm.trans hk
  rw [Directory.leave, Index.get?_erase, if_neg, c p k hkp]
  rintro rfl
  exact hkh (hp k hkp)

theorem Sound.shift (s : d.Sound) (hp : d.path? h = some old) (new : Path) :
    (d.shift h old new).Sound :=
  (s.leave fun _ hq => Option.some.inj (hq.symm.trans hp)).enter (if_pos rfl) new

theorem get?_shift (h : Handle) (old new : Path) (d : Directory) (p : Path) :
    (d.shift h old new).index.get? p =
      if p = new then some h else if p = old then none else d.index.get? p := by
  rw [shift, Directory.enter, Index.get?_insert, Directory.leave, Index.get?_erase]

theorem path?_shift_of_ne (hk : k ≠ h) (old new : Path) (d : Directory) :
    (d.shift h old new).path? k = d.path? k :=
  (if_neg hk).trans (if_neg hk)

/-- A handle whose path is taken when it moves is there itself if no other one misses its entry
afterwards. -/
theorem Complete.of_shift (c : (d.shift h old new).Complete) (s : d.Sound)
    (hp : d.path? h = some old) (ht : ∃ k, d.index.get? old = some k) : d.Complete := by
  have hother : ∀ p k, k ≠ h → d.path? k = some p → p ≠ old ∧ d.index.get? p = some k := by
    intro p k hk hkp
    have hget := c p k ((path?_shift_of_ne hk old new d).trans hkp)
    rw [get?_shift] at hget
    split at hget
    · exact absurd (Option.some.inj hget).symm hk
    · split at hget
      · cases hget
      · next hne => exact ⟨hne, hget⟩
  intro p k hkp
  by_cases hk : k = h
  · obtain ⟨k', hk'⟩ := ht
    have hsame : k' = h := by
      by_cases hsame : k' = h
      · exact hsame
      · exact absurd rfl (hother old k' hsame (s old k' hk')).1
    rw [hk, hp, Option.some.injEq] at hkp
    rw [← hkp, hk, ← hsame]
    exact hk'
  · exact (hother p k hk hkp).2

theorem values_shift (s : d.Sound) (c : d.Complete) (hp : d.path? h = some old)
    (c' : (d.shift h old new).Complete) :
    (d.shift h old new).index.values = d.index.values.filter (· ≠ h) ++ [h] := by
  have hat : ∀ q k, d.index.get? q = some k → (k = h ↔ q = old) := by
    intro q k hq
    constructor
    · rintro rfl
      exact Option.some.inj ((s q k hq).symm.trans hp)
    · rintro rfl
      exact Option.some.inj (hq.symm.trans (c q h hp))
  have hfree : (d.leave h old).index.get? new = none := by
    rw [Directory.leave, Index.get?_erase]
    split
    · rfl
    · next hne =>
      refine Option.eq_none_iff_forall_ne_some.mpr fun k hk => ?_
      have hkh : k ≠ h := fun hkh => hne ((hat new k hk).mp hkh)
      have hget := c' new k ((path?_shift_of_ne hkh old new d).trans (s new k hk))
      rw [get?_shift, if_pos rfl] at hget
      exact hkh (Option.some.inj hget).symm
  have herased : (d.leave h old).index.values = d.index.values.filter (· ≠ h) :=
    Index.values_erase hat
  rw [← herased]
  exact Index.values_insert_of_free hfree h

/-- Some handles move, one after the other. -/
inductive Shifts : List Handle → Directory → Directory → Prop
  | nil (d : Directory) : Shifts [] d d
  | cons {h : Handle} {hs : List Handle} {old new : Path} {d d' : Directory} :
      d.path? h = some old → Shifts hs (d.shift h old new) d' → Shifts (h :: hs) d d'

/-- Handles at different paths, each of which the index has an entry for. An entry may be that of a
handle that has moved there before. -/
structure Pending (hs : List Handle) (d : Directory) : Prop where
  taken : ∀ h ∈ hs, ∀ p, d.path? h = some p → ∃ k, d.index.get? p = some k
  apart : ∀ h ∈ hs, ∀ k ∈ hs, ∀ p, d.path? h = some p → d.path? k = some p → h = k

theorem Complete.pending (c : d.Complete) (hs : List Handle) : Pending hs d where
  taken := fun h _ p hp => ⟨h, c p h hp⟩
  apart := by
    intro h _ k _ p hp hk
    exact Option.some.inj ((c p h hp).symm.trans (c p k hk))

theorem Pending.shift (w : Pending (h :: hs) d) (hn : h ∉ hs) (hp : d.path? h = some old)
    (new : Path) : Pending hs (d.shift h old new) := by
  have hpath : ∀ k ∈ hs, (d.shift h old new).path? k = d.path? k := by
    intro k hk
    refine path?_shift_of_ne ?_ old new d
    rintro rfl
    exact hn hk
  constructor
  case taken =>
    intro k hk p hkp
    rw [hpath k hk] at hkp
    have hne : p ≠ old := by
      rintro rfl
      exact hn (w.apart k (List.mem_cons_of_mem h hk) h List.mem_cons_self p hkp hp ▸ hk)
    rw [get?_shift, if_neg hne]
    split
    · exact ⟨h, rfl⟩
    · exact w.taken k (List.mem_cons_of_mem h hk) p hkp
  case apart =>
    intro k hk k' hk' p hkp hkp'
    rw [hpath k hk] at hkp
    rw [hpath k' hk'] at hkp'
    exact w.apart k (List.mem_cons_of_mem h hk) k' (List.mem_cons_of_mem h hk') p hkp hkp'

namespace Shifts

theorem append (r : Shifts hs d d') (r' : Shifts ks d' d'') : Shifts (hs ++ ks) d d'' := by
  induction r with
  | nil => exact r'
  | cons hp _ ih => exact .cons hp (ih r')

theorem sound (r : Shifts hs d d') (s : d.Sound) : d'.Sound := by
  induction r with
  | nil => exact s
  | cons hp _ ih => exact ih (s.shift hp _)

theorem exists_path?_iff (r : Shifts hs d d') :
    (∃ p, d'.path? k = some p) ↔ ∃ p, d.path? k = some p := by
  induction r with
  | nil => rfl
  | @cons h _ old new d _ hp _ ih =>
    rw [ih]
    by_cases hk : k = h
    · exact ⟨fun _ => ⟨old, hk ▸ hp⟩, fun _ => ⟨new, if_pos hk⟩⟩
    · rw [path?_shift_of_ne hk]

theorem complete_and_values (r : Shifts hs d d') (hn : hs.Nodup) (s : d.Sound) (w : Pending hs d)
    (c' : d'.Complete) :
    d.Complete ∧ d'.index.values = d.index.values.filter (· ∉ hs) ++ hs := by
  -- That the others are pending is carried forward along the moves, that the index is complete is
  -- carried back from the end.
  induction r with
  | nil d =>
    have hall : d.index.values.filter (· ∉ []) = d.index.values :=
      List.filter_eq_self.mpr fun k _ => decide_eq_true List.not_mem_nil
    rw [hall, List.append_nil]
    exact ⟨c', rfl⟩
  | @cons h hs old new d d' hp _ ih =>
    obtain ⟨hnot, hn⟩ := List.nodup_cons.mp hn
    obtain ⟨c₁, hvalues⟩ := ih hn (s.shift hp new) (w.shift hnot hp new) c'
    have c := c₁.of_shift s hp (w.taken h List.mem_cons_self old hp)
    refine ⟨c, ?_⟩
    have hsingle : [h].filter (· ∉ hs) = [h] := by simpa using hnot
    have hboth : (d.index.values.filter (· ≠ h)).filter (· ∉ hs) =
        d.index.values.filter (· ∉ h :: hs) := by
      rw [List.filter_filter]
      refine List.filter_congr fun k _ => ?_
      simp [Bool.and_comm]
    rw [hvalues, values_shift s c hp c₁, List.filter_append, hsingle, hboth, List.append_assoc,
      List.singleton_append]

theorem values_eq_iff (r : Shifts hs d d') (hn : hs.Nodup) (s : d.Sound) (c : d.Complete)
    (c' : d'.Complete) : d'.index.values = d.index.values ↔ hs <:+ d.index.values := by
  have hvalues := (r.complete_and_values hn s (c.pending hs) c').2
  constructor
  · intro hsame
    rw [← hsame, hvalues]
    exact List.suffix_append _ hs
  · rintro ⟨before, hbefore⟩
    have hnodup := s.values_nodup
    rw [← hbefore, List.nodup_append] at hnodup
    have hkept : before.filter (· ∉ hs) = before := by
      refine List.filter_eq_self.mpr fun k hk => decide_eq_true fun hm => ?_
      exact hnodup.2.2 k hk k hm rfl
    have hgone : hs.filter (· ∉ hs) = [] := by
      refine List.filter_eq_nil_iff.mpr fun k hk => ?_
      simpa using hk
    rw [hvalues, ← hbefore, List.filter_append, hkept, hgone, List.append_nil]

end Shifts
end Directory
end ModelGraph
