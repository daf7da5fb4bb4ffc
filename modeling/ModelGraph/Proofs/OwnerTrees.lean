import Mathlib.Data.List.Nodup
import ModelGraph.Proofs.Evolution
import ModelGraph.Proofs.Retirement
import ModelGraph.Proofs.Subtrees

namespace ModelGraph

theorem Body.children_filter (p : Handle → Bool) (b : Body) :
    (b.mapChildren (·.filter p)).children = b.children.filter p := by
  cases b <;> rfl

/-- What an element has to do with others in its graph, apart from its path. -/
def Element.ties (e : Element) : Kind × Option Handle × Bool × List Handle :=
  (e.kind, e.package, e.deleted, e.body.children)

namespace Graph

variable {g g' : Graph} {h k o c : Handle} {e : Element} {fuel : Nat}

def childrenOf (g : Graph) (h : Handle) : List Handle := ((g.body? h).map Body.children).getD []

theorem childrenOf_of_element? (he : g.element? h = some e) : g.childrenOf h = e.body.children := by
  rw [childrenOf, body?, he, Option.map_some, Option.map_some, Option.getD_some]

theorem childrenOf_of_none (he : g.element? h = none) : g.childrenOf h = [] := by
  rw [childrenOf, body?, he, Option.map_none, Option.map_none, Option.getD_none]

/-- The elements list what they own, each once and nothing else, and are older than what they own. -/
structure Forested (g : Graph) : Prop where
  mem_iff : ∀ o c, c ∈ g.childrenOf o ↔ g.IsOwner o c
  older : ∀ o c, g.IsOwner o c → o.slot < c.slot
  nodup : ∀ o, (g.childrenOf o).Nodup

/-- What an element owns, down to `fuel` levels, each element before what it owns itself. -/
def descendants (g : Graph) : (fuel : Nat) → Handle → List Handle
  | 0, _ => []
  | fuel + 1, h => (g.childrenOf h).flatMap fun c => c :: descendants g fuel c

def subtree (g : Graph) (h : Handle) : List Handle := h :: g.descendants g.fuel h

theorem IsOwner.unique {o' : Handle} (ho : g.IsOwner o h) (ho' : g.IsOwner o' h) : o = o' := by
  obtain ⟨x, hx, hp⟩ := ho
  obtain ⟨y, hy, hp'⟩ := ho'
  rw [hx.unique hy, hp'] at hp
  exact (Option.some.inj hp).symm

theorem InSubtree.total (hh : g.InSubtree h c) (hk : g.InSubtree k c) :
    g.InSubtree h k ∨ g.InSubtree k h := by
  have hup : Relator.RightUnique (Function.swap g.IsOwner) := fun _ _ _ ho ho' => ho.unique ho'
  have htotal := Relation.ReflTransGen.total_of_right_unique hup
    (Relation.reflTransGen_swap.mpr hh) (Relation.reflTransGen_swap.mpr hk)
  exact htotal.symm.imp Relation.reflTransGen_swap.mp Relation.reflTransGen_swap.mp

namespace Forested

variable (f : g.Forested)
include f

theorem slot_lt (hk : Relation.TransGen g.IsOwner h k) : h.slot < k.slot := by
  induction hk with
  | single ho => exact f.older _ _ ho
  | tail _ ho ih => exact Nat.lt_trans ih (f.older _ _ ho)

theorem slot_le (hk : g.InSubtree h k) : h.slot ≤ k.slot := by
  rcases Relation.reflTransGen_iff_eq_or_transGen.mp hk with rfl | hk
  · exact Nat.le_refl _
  · exact Nat.le_of_lt (f.slot_lt hk)

theorem transGen_of_mem_descendants (hk : k ∈ g.descendants fuel h) :
    Relation.TransGen g.IsOwner h k := by
  induction fuel generalizing h with
  | zero => cases hk
  | succ fuel ih =>
    obtain ⟨c, hc, hk⟩ := List.mem_flatMap.mp hk
    have ho := (f.mem_iff h c).mp hc
    rcases List.mem_cons.mp hk with rfl | hk
    · exact .single ho
    · exact .head ho (ih hk)

theorem eq_of_inSubtree (hh : g.IsOwner o h) (hk : g.IsOwner o k) (hs : g.InSubtree h k) :
    h = k := by
  cases hs with
  | refl => rfl
  | tail hs ho =>
    rw [ho.unique hk] at hs
    exact absurd (f.slot_le hs) (Nat.not_le_of_lt (f.older o h hh))

theorem nodup_descendants (fuel : Nat) (h : Handle) : (g.descendants fuel h).Nodup := by
  induction fuel generalizing h with
  | zero => exact List.nodup_nil
  | succ fuel ih =>
    rw [descendants, List.nodup_flatMap]
    constructor
    · intro c _
      refine List.nodup_cons.mpr ⟨fun hc => ?_, ih c⟩
      exact Nat.lt_irrefl _ (f.slot_lt (f.transGen_of_mem_descendants hc))
    · -- Something below two children would put one of these below the other.
      refine List.Pairwise.imp_of_mem ?_ (f.nodup h)
      intro c d hc hd hne x hxc hxd
      have hbelow : ∀ {c}, x ∈ c :: g.descendants fuel c → g.InSubtree c x := by
        intro c hx
        rcases List.mem_cons.mp hx with rfl | hx
        · exact .refl
        · exact (f.transGen_of_mem_descendants hx).to_reflTransGen
      have hoc := (f.mem_iff h c).mp hc
      have hod := (f.mem_iff h d).mp hd
      rcases (hbelow hxc).total (hbelow hxd) with hs | hs
      · exact hne (f.eq_of_inSubtree hoc hod hs)
      · exact hne (f.eq_of_inSubtree hod hoc hs).symm

theorem nodup_subtree (h : Handle) : (g.subtree h).Nodup := by
  refine List.nodup_cons.mpr ⟨fun hh => ?_, f.nodup_descendants _ h⟩
  exact Nat.lt_irrefl _ (f.slot_lt (f.transGen_of_mem_descendants hh))

end Forested

theorem forested_empty (r : Registry) : ({ registry := r } : Graph).Forested := by
  have hnone : ∀ o c, ¬({ registry := r } : Graph).IsOwner o c := by
    rintro o c ⟨x, hx, -⟩
    exact not_liveAt_empty r c x hx
  constructor
  case mem_iff =>
    intro o c
    rw [childrenOf_of_none rfl]
    exact iff_of_false List.not_mem_nil (hnone o c)
  case older => exact fun o c hoc => absurd hoc (hnone o c)
  case nodup =>
    intro o
    rw [childrenOf_of_none rfl]
    exact List.nodup_nil

section Push

variable {owner : Option Handle} {path : Path}
  (ho : ∀ o, owner = some o → ∃ p, g.LiveAt o p ∧ p.kind = .package)
include ho

theorem isOwner_push_iff (hd : e.deleted = false) :
    (g.push e owner path).1.IsOwner o c ↔
      (c = ⟨g.elements.size⟩ ∧ owner = some o) ∨ g.IsOwner o c := by
  simp only [IsOwner, liveAt_push_iff ho hd]
  constructor
  · rintro ⟨x, ⟨hc, rfl⟩ | ⟨y, hy, rfl⟩, hx⟩
    · exact .inl ⟨hc, hx⟩
    · exact .inr ⟨y, hy, (package_grown _ _ _ _).symm.trans hx⟩
  · rintro (⟨hc, howner⟩ | ⟨y, hy, hyo⟩)
    · exact ⟨_, .inl ⟨hc, rfl⟩, howner⟩
    · exact ⟨_, .inr ⟨y, hy, rfl⟩, (package_grown _ _ _ _).trans hyo⟩

theorem childrenOf_push (hc : e.body.children = []) (o : Handle) :
    (g.push e owner path).1.childrenOf o =
      if owner = some o then g.childrenOf o ++ [⟨g.elements.size⟩] else g.childrenOf o := by
  have hother : g.element? o = none → owner ≠ some o := by
    intro hnone howner
    obtain ⟨p, hp, -⟩ := ho o howner
    rw [hp.1] at hnone
    cases hnone
  have helement : (g.push e owner path).1.element? o = _ := element?_push_grown ho o
  by_cases hnew : o = ⟨g.elements.size⟩
  · have hnone : g.element? o = none := by
      rw [hnew, element?, Array.getElem?_eq_none (Nat.le_refl _)]
    rw [if_pos hnew] at helement
    rw [childrenOf_of_element? helement, if_neg (hother hnone), childrenOf_of_none hnone]
    exact hc
  · rw [if_neg hnew] at helement
    cases hp : g.element? o with
    | none =>
      rw [hp] at helement
      rw [childrenOf_of_none helement, if_neg (hother hp), childrenOf_of_none hp]
    | some p =>
      have hk : owner = some o → p.kind = .package := by
        intro howner
        obtain ⟨p', hp', hk⟩ := ho o howner
        rw [Option.some.inj (hp.symm.trans hp'.1), hk]
      rw [hp, Option.map_some] at helement
      rw [childrenOf_of_element? helement, childrenOf_of_element? hp, children_grown _ _ _ _ hk]

theorem Forested.push (f : g.Forested) (hc : e.body.children = []) (hd : e.deleted = false) :
    (g.push e owner path).1.Forested := by
  have hnew : ∀ o, (⟨g.elements.size⟩ : Handle) ∉ g.childrenOf o := by
    intro o hm
    obtain ⟨x, hx, -⟩ := (f.mem_iff o _).mp hm
    exact hx.ne_next rfl
  constructor
  case mem_iff =>
    intro o c
    rw [isOwner_push_iff ho hd, childrenOf_push ho hc, ← f.mem_iff]
    by_cases howner : owner = some o
    · simp [howner, or_comm]
    · simp [howner]
  case older =>
    intro o c hoc
    rcases (isOwner_push_iff ho hd).mp hoc with ⟨rfl, howner⟩ | hoc
    · obtain ⟨p, hp, -⟩ := ho o howner
      exact slot_lt_of_element? hp.1
    · exact f.older o c hoc
  case nodup =>
    intro o
    rw [childrenOf_push ho hc]
    split
    · exact List.concat_eq_append ▸ (f.nodup o).concat (hnew o)
    · exact f.nodup o

end Push

theorem isOwner_retire_iff : (g.retire h e).IsOwner o c ↔ c ≠ h ∧ g.IsOwner o c := by
  simp only [IsOwner, liveAt_retire]
  constructor
  · rintro ⟨x, ⟨hc, y, hy, rfl⟩, hx⟩
    exact ⟨hc, y, hy, (thinned_shrunk _ _ _ _).package.symm.trans hx⟩
  · rintro ⟨hc, y, hy, hyo⟩
    exact ⟨_, ⟨hc, y, hy, rfl⟩, (thinned_shrunk _ _ _ _).package.trans hyo⟩

theorem childrenOf_retire (g : Graph) (h : Handle) (e : Element) (o : Handle) :
    (g.retire h e).childrenOf o =
      if e.package = some o then (g.childrenOf o).filter (· ≠ h) else g.childrenOf o := by
  have helement := element?_retire g h e o
  cases hp : g.element? o with
  | none =>
    rw [hp, Option.map_none] at helement
    rw [childrenOf_of_none helement, childrenOf_of_none hp, List.filter_nil, ite_self]
  | some p =>
    have hmarked : (marked h o p).body = p.body := by
      unfold marked
      split <;> rfl
    rw [hp, Option.map_some] at helement
    rw [childrenOf_of_element? helement, childrenOf_of_element? hp, shrunk]
    split
    · exact (Body.children_filter _ _).trans (by rw [hmarked])
    · rw [hmarked]

theorem Forested.retire (f : g.Forested)
    (he : ∀ x, g.element? h = some x → x.package = e.package) : (g.retire h e).Forested where
  mem_iff o c := by
    rw [isOwner_retire_iff, childrenOf_retire, ← f.mem_iff]
    split
    · rw [List.mem_filter, decide_eq_true_eq, and_comm]
    · next hne =>
      refine ⟨fun hc => ⟨?_, hc⟩, And.right⟩
      rintro rfl
      obtain ⟨x, hx, ho⟩ := (f.mem_iff o c).mp hc
      exact hne ((he x hx.1).symm.trans ho)
  older o c hoc := f.older o c (isOwner_retire_iff.mp hoc).2
  nodup o := by
    rw [childrenOf_retire]
    split
    · exact (f.nodup o).filter _
    · exact f.nodup o

abbrev KeepsTies : Graph → Graph → Prop := Evolves fun e e' => e'.ties = e.ties

section KeepsTies

variable (v : KeepsTies g g')
include v

theorem KeepsTies.childrenOf_eq (h : Handle) : g'.childrenOf h = g.childrenOf h := by
  have hties := congrArg (Option.map fun t => t.2.2.2) (v.map_eq h)
  rw [Option.map_map, Option.map_map] at hties
  rw [childrenOf, childrenOf, body?, body?, Option.map_map, Option.map_map]
  exact congrArg (Option.getD · []) hties

theorem KeepsTies.exists_liveAt_iff (P : Kind → Option Handle → Prop) (h : Handle) :
    (∃ e, g'.LiveAt h e ∧ P e.kind e.package) ↔ ∃ e, g.LiveAt h e ∧ P e.kind e.package := by
  have hrel := v h
  simp only [LiveAt]
  generalize g.element? h = x, g'.element? h = y at hrel
  cases hrel with
  | none => simp
  | some hties =>
    simp only [Element.ties, Prod.mk.injEq] at hties
    obtain ⟨hk, hp, hd, -⟩ := hties
    simp [hk, hp, hd]

theorem KeepsTies.isOwner_iff : g'.IsOwner o c ↔ g.IsOwner o c :=
  v.exists_liveAt_iff (fun _ package => package = some o) c

theorem Forested.keepsTies (f : g.Forested) : g'.Forested where
  mem_iff o c := by rw [v.childrenOf_eq, f.mem_iff, v.isOwner_iff]
  older o c hoc := f.older o c (v.isOwner_iff.mp hoc)
  nodup o := by
    rw [v.childrenOf_eq]
    exact f.nodup o

end KeepsTies

end Graph
end ModelGraph
