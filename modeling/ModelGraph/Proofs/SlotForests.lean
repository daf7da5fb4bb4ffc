import ModelGraph.Proofs.FreshMappings
import ModelGraph.Proofs.Spelling

namespace ModelGraph

open Record Json

theorem mapM_congr {ε α β : Type} {f g : α → Except ε β} {items : List α}
    (h : ∀ a ∈ items, f a = g a) : items.mapM f = items.mapM g := by
  induction items with
  | nil => rfl
  | cons a items ih =>
    rw [List.mapM_cons, List.mapM_cons, h a List.mem_cons_self,
      ih fun b hb => h b (List.mem_cons_of_mem _ hb)]

namespace Mapping

/-- Every slot of the mapping is at the top or is held by one other slot, exactly once, and a slot
holds slots before its own. -/
structure IsForest (m : Mapping) : Prop where
  once : (m.top ++ m.slots.flatMap SetImplementation.inner).Perm (List.range m.slots.length)
  before : ∀ ⦃i : Nat⦄ ⦃s : SetImplementation⦄, m.slots[i]? = some s → ∀ n ∈ s.inner, n < i

theorem isForest_of_read {r : Registry} {path : Path} {j : Json} {m : Mapping}
    (h : Entry.mapping r path j = .ok m) : m.IsForest where
  once := (Entry.isFresh_of_mapping h).once
  before _ _ hs := ((Entry.fits_of_mapping h).1 hs).inner

end Mapping

namespace SetImplementation

variable {s : SetImplementation} {p : PropertyMapping} {n : Nat}

theorem mem_inner_of_property (hp : p ∈ s.properties) (hn : p.embedded? = some n) : n ∈ s.inner :=
  List.mem_append_left _ (List.mem_filterMap.mpr ⟨p, hp, hn⟩)

theorem mem_inner_of_aggregation {main : Nat} {aggregates : List Aggregate}
    {properties : List PropertyMapping} (hk : s.kind = .aggregationAware main aggregates properties)
    (hn : n ∈ main :: aggregates.map Aggregate.slot) : n ∈ s.inner := by
  rw [inner, hk]
  exact List.mem_append_right _ hn

end SetImplementation

theorem PropertyMapping.nestedInput_congr {nested nested' : Nat → Digest} {p : PropertyMapping}
    (h : ∀ n, p.embedded? = some n → nested n = nested' n) :
    p.nestedInput nested = p.nestedInput nested' := by
  rw [nestedInput, nestedInput]
  cases hk : p.kind with
  | embedded index =>
    have hindex := h index (by rw [embedded?, hk])
    simp only [hindex]
  | _ => rfl

theorem SetImplementation.nestedInput_congr {nested nested' : Nat → Digest} {s : SetImplementation}
    (h : ∀ n ∈ s.inner, nested n = nested' n) :
    s.kind.nestedInput nested = s.kind.nestedInput nested' := by
  have hproperties : s.properties.map (fun p => (p.nestedInput nested).digest) =
      s.properties.map fun p => (p.nestedInput nested').digest := by
    refine List.map_congr_left fun p hp => congrArg HashInput.digest ?_
    exact PropertyMapping.nestedInput_congr fun n hn => h n (mem_inner_of_property hp hn)
  cases hk : s.kind with
  | aggregationAware main aggregates properties =>
    have hslots := fun n hn => h n (mem_inner_of_aggregation hk hn)
    have hmain := hslots main List.mem_cons_self
    have haggregates : aggregates.flatMap (Aggregate.nestedInput nested) =
        aggregates.flatMap (Aggregate.nestedInput nested') := by
      refine List.flatMap_congr fun a ha => ?_
      rw [Aggregate.nestedInput, Aggregate.nestedInput,
        hslots a.slot (List.mem_cons_of_mem _ (List.mem_map_of_mem ha))]
    rw [SetImplementation.properties, hk] at hproperties
    simp only [SetImplementationKind.nestedInput, hmain, haggregates, hproperties]
  | operation o parameters => rfl
  | extension e => rfl
  | _ =>
    rw [SetImplementation.properties, hk] at hproperties
    simp only [SetImplementationKind.nestedInput, hproperties]

namespace Mapping

section Documents

variable {m : Mapping} {names : Naming} {fuel fuel' index : Nat} {p : PropertyMapping}

theorem propertyJson_of_plain (h : p.embedded? = none) :
    m.propertyJson names (fuel + 1) p = m.propertyJson names (fuel' + 1) p := by
  cases hk : p.kind with
  | embedded index =>
    rw [PropertyMapping.embedded?, hk] at h
    cases h
  | _ => simp only [propertyJson, hk]

theorem propertyJson_of_embedded (h : p.embedded? = some index) :
    m.propertyJson names (fuel + 1) p = (do
      let s ← m.slot index
      match s.kind with
      | .embedded properties =>
        let properties ← properties.mapM (m.propertyJson names fuel)
        return p.embeddedJson names s properties
      | _ => throw (.notEmbedded p.property s.id.value)) := by
  cases hk : p.kind with
  | embedded index' =>
    rw [PropertyMapping.embedded?, hk, Option.some.injEq] at h
    subst h
    rw [propertyJson]
    simp only [hk]
    rfl
  | _ =>
    rw [PropertyMapping.embedded?, hk] at h
    cases h

end Documents

def treeWithin (m : Mapping) : (fuel : Nat) → (index : Nat) → List Nat
  | 0, _ => []
  | fuel + 1, index =>
    match m.slots[index]? with
    | none => []
    | some s => index :: s.inner.flatMap (treeWithin m fuel)

def tree (m : Mapping) (index : Nat) : List Nat := m.treeWithin (m.slots.length + 1) index

namespace IsForest

variable {m : Mapping} (hm : m.IsForest)
include hm

theorem eq_of_lt {β : Type} {f : Nat → Nat → β}
    (none : ∀ {fuel fuel' i}, m.slots[i]? = none → f (fuel + 1) i = f (fuel' + 1) i)
    (some : ∀ {fuel fuel' i s}, m.slots[i]? = some s → (∀ n ∈ s.inner, f fuel n = f fuel' n) →
      f (fuel + 1) i = f (fuel' + 1) i)
    {fuel fuel' i : Nat} (hi : i < fuel) (hi' : i < fuel') : f fuel i = f fuel' i := by
  induction fuel generalizing fuel' i with
  | zero => exact absurd hi (Nat.not_lt_zero i)
  | succ fuel ih =>
    obtain _ | fuel' := fuel'
    · exact absurd hi' (Nat.not_lt_zero i)
    cases hs : m.slots[i]? with
    | none => exact none hs
    | some s =>
      refine some hs fun n hn => ?_
      have hlt := hm.before hs n hn
      exact ih (by omega) (by omega)

theorem slotInput_eq {fuel fuel' i : Nat} (hi : i < fuel) (hi' : i < fuel') :
    m.slotInput fuel i = m.slotInput fuel' i := by
  refine hm.eq_of_lt ?_ ?_ hi hi'
  · intro fuel fuel' i hs
    rw [slotInput_succ, slotInput_succ, hs]
  · intro fuel fuel' i s hs ih
    have hkind := SetImplementation.nestedInput_congr (s := s) fun n hn =>
      congrArg HashInput.digest (ih n hn)
    simp only [slotInput_succ, hs, hkind]

theorem collectEmbedded_eq {fuel fuel' i : Nat} (hi : i < fuel) (hi' : i < fuel') :
    m.collectEmbedded fuel i = m.collectEmbedded fuel' i := by
  refine hm.eq_of_lt ?_ ?_ hi hi'
  · intro fuel fuel' i hs
    funext found
    rw [collectEmbedded, collectEmbedded, hs]
  · intro fuel fuel' i s hs ih
    funext found
    rw [collectEmbedded, collectEmbedded, hs]
    refine List.foldl_ext _ _ found fun found n hn => ?_
    rw [ih n (List.mem_append_left _ hn)]

theorem propertyJson_eq (names : Naming) {fuel fuel' : Nat} {p : PropertyMapping}
    (h : ∀ n, p.embedded? = some n → n < fuel ∧ n < fuel') :
    m.propertyJson names (fuel + 1) p = m.propertyJson names (fuel' + 1) p := by
  induction fuel generalizing fuel' p with
  | zero =>
    refine propertyJson_of_plain (Option.eq_none_iff_forall_ne_some.mpr fun n hn => ?_)
    exact Nat.not_lt_zero n (h n hn).1
  | succ fuel ih =>
    cases hp : p.embedded? with
    | none => exact propertyJson_of_plain hp
    | some index =>
      obtain ⟨hlt, hlt'⟩ := h index hp
      obtain ⟨fuel', rfl⟩ := Nat.exists_eq_add_one_of_ne_zero (Nat.ne_zero_of_lt hlt')
      rw [propertyJson_of_embedded hp, propertyJson_of_embedded hp]
      cases hs : m.slots[index]? with
      | none => simp only [slot, hs, error_bind]
      | some s =>
        simp only [slot_eq_ok hs, ok_bind]
        cases hk : s.kind with
        | embedded properties =>
          refine congrArg (· >>= _) (mapM_congr fun q hq => ih fun n hn => ?_)
          have hinner : n ∈ s.inner :=
            SetImplementation.mem_inner_of_property (by rwa [SetImplementation.properties, hk]) hn
          have hn := hm.before hs n hinner
          omega
        | _ => rfl

theorem classMappingJson_eq (names : Naming) {fuel fuel' i : Nat} (hi : i < fuel)
    (hi' : i < fuel') : m.classMappingJson names fuel i = m.classMappingJson names fuel' i := by
  refine hm.eq_of_lt ?_ ?_ hi hi'
  · intro fuel fuel' i hs
    simp only [classMappingJson, slot, hs]
    rfl
  · intro fuel fuel' i s hs ih
    cases hk : s.kind with
    | aggregationAware main aggregates properties =>
      have hslots := fun n hn => ih n (SetImplementation.mem_inner_of_aggregation hk hn)
      have haggregates :
          aggregates.mapM (ClassMappingDocument.gatherAggregate names m fuel) =
            aggregates.mapM (ClassMappingDocument.gatherAggregate names m fuel') := by
        refine mapM_congr fun a ha => ?_
        rw [ClassMappingDocument.gatherAggregate, ClassMappingDocument.gatherAggregate,
          hslots a.slot (List.mem_cons_of_mem _ (List.mem_map_of_mem ha))]
      rw [ClassMappingDocument.classMappingJson_of_aggregation hs hk,
        ClassMappingDocument.classMappingJson_of_aggregation hs hk, haggregates,
        hslots main List.mem_cons_self]
    | _ => simp only [classMappingJson, slot_eq_ok hs, ok_bind, hk]

theorem treeWithin_eq {fuel fuel' i : Nat} (hi : i < fuel) (hi' : i < fuel') :
    m.treeWithin fuel i = m.treeWithin fuel' i := by
  refine hm.eq_of_lt ?_ ?_ hi hi'
  · intro fuel fuel' i hs
    rw [treeWithin, treeWithin, hs]
  · intro fuel fuel' i s hs ih
    simp only [treeWithin, hs, List.flatMap_congr ih]

theorem tree_of_slot {i : Nat} {s : SetImplementation} (hs : m.slots[i]? = some s) :
    m.tree i = i :: s.inner.flatMap m.tree := by
  have hi : i < m.slots.length := (List.getElem?_eq_some_iff.mp hs).1
  rw [tree, treeWithin, hs]
  refine congrArg (i :: ·) (List.flatMap_congr fun n hn => ?_)
  have hn := hm.before hs n hn
  exact hm.treeWithin_eq (by omega) (by omega)

/-- The trees of the first slots are those slots and the trees of what these hold. -/
theorem trees_of_first {k : Nat} (hk : k ≤ m.slots.length) :
    ((List.range k).flatMap m.tree).Perm
      (List.range k ++ ((m.slots.take k).flatMap SetImplementation.inner).flatMap m.tree) := by
  induction k with
  | zero => exact .nil
  | succ k ih =>
    have hs : m.slots[k]? = some m.slots[k] := List.getElem?_eq_getElem (by omega)
    rw [List.range_succ, List.flatMap_append, List.flatMap_singleton, hm.tree_of_slot hs,
      List.take_add_one, hs, List.flatMap_append, List.flatMap_append, Option.toList_some,
      List.flatMap_singleton]
    exact ((ih (by omega)).append_right _).trans (perm_interchange _ _ [k] _)

theorem trees_of_top : (m.top.flatMap m.tree).Perm (List.range m.slots.length) := by
  have hall := hm.trees_of_first (Nat.le_refl m.slots.length)
  rw [List.take_length] at hall
  have honce := (hm.once.flatMap_right m.tree).trans hall
  rw [List.flatMap_append] at honce
  exact (List.perm_append_right_iff _).mp honce

theorem nodup_top : m.top.Nodup :=
  (List.nodup_append'.mp (hm.once.nodup_iff.mpr List.nodup_range)).1

theorem top_lt : ∀ i ∈ m.top, i < m.slots.length :=
  fun _ hi => List.mem_range.mp (hm.once.subset (List.mem_append_left _ hi))

end IsForest
end Mapping
end ModelGraph
