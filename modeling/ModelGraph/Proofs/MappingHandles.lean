import ModelGraph.Proofs.Evolution
import ModelGraph.Proofs.Outlines
import ModelGraph.Proofs.Sweeps

namespace ModelGraph

def forgotten : Rebinding := spell fun _ => ⟨""⟩

/-- The enumeration mapping without its bindings. -/
def EnumerationMapping.skeleton (m : EnumerationMapping) : EnumerationMapping := m.rebind forgotten

/-- The set implementation without its bindings, those of wiring included. -/
def SetImplementation.skeleton (s : SetImplementation) : SetImplementation :=
  (s.rebind forgotten).unwire

namespace Mapping

variable {m m' : Mapping}

def skeleton (m : Mapping) : Mapping := (m.rebind forgotten).unwire

theorem skeleton_rebind (f : Rebinding) (m : Mapping) : (m.rebind f).skeleton = m.skeleton := by
  rw [skeleton, rebind_rebind]
  rfl

theorem skeleton_of_unwire (h : m'.unwire = m.unwire) : m'.skeleton = m.skeleton := by
  rw [skeleton, skeleton, unwire_rebind, unwire_rebind, h]

theorem slots_skeleton (m : Mapping) :
    m.skeleton.slots = m.slots.map SetImplementation.skeleton := by
  simp [skeleton, unwire, rebind, SetImplementation.skeleton, Function.comp_def]

theorem enumerationMappings_skeleton (m : Mapping) :
    m.skeleton.enumerationMappings = m.enumerationMappings.map EnumerationMapping.skeleton := rfl

theorem prune_prune (isDead : Handle → Bool) (m : Mapping) :
    (m.prune isDead).prune isDead = m.prune isDead := by
  simp [prune, List.filter_filter]

end Mapping

namespace Body

variable {b b' : Body}

def skeleton? (b : Body) : Option Mapping := b.mapping?.map Mapping.skeleton

theorem skeleton?_mapChildren (f : List Handle → List Handle) (b : Body) :
    (b.mapChildren f).skeleton? = b.skeleton? := by
  rw [skeleton?, mapping?_mapChildren, skeleton?]

theorem skeleton?_rebind (f : Rebinding) (b : Body) : (b.rebind f).skeleton? = b.skeleton? := by
  rw [skeleton?, mapping?_rebind, Option.map_map, skeleton?]
  exact congrArg (Option.map · b.mapping?) (funext (Mapping.skeleton_rebind f))

theorem skeleton?_of_unwire (h : b'.unwire = b.unwire) : b'.skeleton? = b.skeleton? := by
  have hm : ∀ b : Body, b.skeleton? = b.unwire.mapping?.map Mapping.skeleton := by
    intro b
    rw [mapping?_unwire, Option.map_map, skeleton?]
    refine congrArg (Option.map · b.mapping?) (funext fun m => ?_)
    exact (Mapping.skeleton_of_unwire m.unwire_unwire).symm
  rw [hm, hm, h]

end Body

/-- What goes over a graph without editing a mapping by itself. -/
inductive Pass where
  | delete (h : Handle)
  | rename (h : Handle) (name : String)
  | resolve
  | sweep
  | wire (h : Handle)
  | wireAll

namespace Pass

def run : Pass → Graph → Graph
  | .delete h, g => (Change.delete h).run g
  | .rename h name, g => (Change.rename h name).run g
  | .resolve, g => g.resolveAll.1
  | .sweep, g => g.sweep.1
  | .wire h, g => (g.wire h).1
  | .wireAll, g => g.wireAll.1

def runAll (ps : List Pass) (g : Graph) : Graph := ps.foldl (fun g p => p.run g) g

end Pass

namespace Graph

variable {g g' : Graph}

def skeleton? (g : Graph) (h : Handle) : Option Mapping := (g.mapping? h).map Mapping.skeleton

def enumerationMappings (g : Graph) (h : Handle) : List EnumerationMapping :=
  ((g.mapping? h).map Mapping.enumerationMappings).getD []

theorem setImplementation?_skeleton (g : Graph) (h : Handle) (i : Nat) :
    (g.setImplementation? ⟨h, i⟩).map SetImplementation.skeleton =
      (g.skeleton? h).bind fun m => m.slots[i]? := by
  rw [setImplementation?, skeleton?]
  cases g.mapping? h with
  | none => rfl
  | some m => simp [Mapping.slots_skeleton]

theorem enumerationMapping?_eq (g : Graph) (h : Handle) (i : Nat) :
    g.enumerationMapping? ⟨h, i⟩ = (g.enumerationMappings h)[i]? := by
  rw [enumerationMapping?, enumerationMappings]
  cases g.mapping? h <;> rfl

theorem enumerationMappings_skeleton (g : Graph) (h : Handle) :
    (g.enumerationMappings h).map EnumerationMapping.skeleton =
      ((g.skeleton? h).map Mapping.enumerationMappings).getD [] := by
  rw [enumerationMappings, skeleton?]
  cases g.mapping? h <;> rfl

theorem Evolves.mapping? {α : Type} {f : Mapping → α}
    (v : Evolves (fun e e' => e'.body.mapping?.map f = e.body.mapping?.map f) g g') (h : Handle) :
    (g'.mapping? h).map f = (g.mapping? h).map f := by
  have hrel := v h
  rw [mapping?_eq, mapping?_eq, body?, body?]
  generalize g.element? h = x, g'.element? h = y at hrel ⊢
  cases hrel with
  | none => rfl
  | some he => exact he

theorem skeleton?_run {p : Pass} (hp : p ≠ .sweep) (g : Graph) (h : Handle) :
    (p.run g).skeleton? h = g.skeleton? h := by
  have l := lasting_eq fun e : Element => e.body.skeleton?
  apply Evolves.mapping? (f := Mapping.skeleton)
  cases p with
  | delete h =>
    exact l.evolves_delete (fun _ => rfl) (fun e f => Body.skeleton?_mapChildren f e.body) h g
  | rename h name =>
    exact l.evolves_rename (fun _ _ _ => rfl) (fun _ _ => rfl)
      (fun e moves => Body.skeleton?_rebind moves.follow e.body) h name g
  | resolve => exact l.evolves_updateLive (fun e => Body.skeleton?_rebind g.bind e.body) g
  | sweep => exact absurd rfl hp
  | wire h =>
    exact l.evolves_update fun e _ => Body.skeleton?_of_unwire (unwire_wireBody g h e.body)
  | wireAll =>
    exact l.evolves_foldl id (fun g h _ =>
      l.evolves_update fun e _ => Body.skeleton?_of_unwire (unwire_wireBody g h e.body)) g

theorem mapping?_pruneAt (isDead : Handle → Bool) (state : Graph × Nat) (h h' : Handle) :
    (pruneAt isDead state h).1.mapping? h' =
      if h' = h then (state.1.mapping? h').map (Mapping.prune isDead) else state.1.mapping? h' := by
  rw [pruneAt_eq, mapping?_eq, mapping?_eq, body?, body?, element?_update]
  split
  · cases state.1.element? h' with
    | none => rfl
    | some e =>
      have hbody : (e.prune isDead).1.body = e.body.prune isDead := by
        rw [e.fst_prune]
      simp only [Option.map_some, Option.bind_some, hbody, Body.mapping?_prune]
  · rfl

theorem mapping?_foldl_pruneAt (isDead : Handle → Bool) (hs : List Handle) (state : Graph × Nat)
    (h : Handle) : (hs.foldl (pruneAt isDead) state).1.mapping? h =
      if h ∈ hs then (state.1.mapping? h).map (Mapping.prune isDead) else state.1.mapping? h := by
  induction hs generalizing state with
  | nil => simp
  | cons a hs ih =>
    have hidem : Mapping.prune isDead ∘ Mapping.prune isDead = Mapping.prune isDead :=
      funext (Mapping.prune_prune isDead)
    rw [List.foldl_cons, ih, mapping?_pruneAt]
    by_cases ha : h = a
    · have hmem : h ∈ a :: hs := List.mem_cons.mpr (.inl ha)
      rw [if_pos ha, if_pos hmem, Option.map_map, hidem, ite_self]
    · rw [if_neg ha]
      exact if_congr (by simp [ha]) rfl rfl

theorem mapping?_cleaned (isDead : Handle → Bool) (c : Cleaner) (e : Element) :
    (cleaned isDead c e).body.mapping? = e.body.mapping? := by
  rw [cleaned]
  split
  · next x hx =>
    split
    · rw [hx]
      rfl
    · rfl
  · rfl

theorem mapping?_sweep (g : Graph) (h : Handle) : g.sweep.1.mapping? h =
    if h ∈ g.index.values then (g.mapping? h).map (Mapping.prune g.isDeleted)
    else g.mapping? h := by
  have l := lasting_eq fun e : Element => e.body.mapping?.map id
  have hcleaned := (l.evolves_foldl id (fun g' (c : Cleaner) (_ : c ∈ g.registry.cleaners) =>
    l.evolves_updateLive (fun e => congrArg (Option.map id) (mapping?_cleaned g.isDeleted c e)) g')
    (g.index.values.foldl (pruneAt g.isDeleted) (g, 0)).1).mapping? h
  rw [Option.map_id, id, id] at hcleaned
  exact hcleaned.trans (mapping?_foldl_pruneAt g.isDeleted g.index.values (g, 0) h)

/-- A sweep does not remove this enumeration mapping from the mapping. -/
def spares (g : Graph) (h : Handle) (m : EnumerationMapping) : Bool :=
  !(g.index.values.contains h && m.enumeration.target.any g.isDeleted)

theorem enumerationMappings_sweep (g : Graph) (h : Handle) :
    g.sweep.1.enumerationMappings h = (g.enumerationMappings h).filter (g.spares h) := by
  rw [enumerationMappings, enumerationMappings, mapping?_sweep]
  cases g.mapping? h with
  | none => simp
  | some m =>
    by_cases hm : h ∈ g.index.values
    · have hspares : g.spares h = fun m => !m.enumeration.target.any g.isDeleted := by
        funext m
        simp [spares, hm]
      rw [if_pos hm, hspares]
      rfl
    · have hspares : g.spares h = fun _ => true := by
        funext m
        simp [spares, hm]
      rw [if_neg hm, hspares, List.filter_true]

theorem slots_sweep (g : Graph) (h : Handle) (i : Nat) :
    g.sweep.1.setImplementation? ⟨h, i⟩ = g.setImplementation? ⟨h, i⟩ := by
  rw [setImplementation?, setImplementation?, mapping?_sweep]
  split
  · cases g.mapping? h <;> rfl
  · rfl

end Graph

def filterAlong {α β : Type} (p : β → Bool) (as : List α) (bs : List β) : List α :=
  ((as.zip bs).filter fun x => p x.2).map Prod.fst

section Along

variable {α β : Type} (p : β → Bool)

theorem filterAlong_sublist (as : List α) (bs : List β) : (filterAlong p as bs).Sublist as := by
  induction as generalizing bs with
  | nil => exact .slnil
  | cons a as ih =>
    cases bs with
    | nil => exact List.nil_sublist _
    | cons b bs =>
      rw [filterAlong, List.zip_cons_cons, List.filter_cons]
      by_cases hp : p b = true
      · rw [if_pos hp]
        exact (ih bs).cons_cons a
      · rw [if_neg hp]
        exact (ih bs).cons a

theorem forall₂_filterAlong {R : α → β → Prop} {as : List α} {bs : List β}
    (h : List.Forall₂ R as bs) : List.Forall₂ R (filterAlong p as bs) (bs.filter p) := by
  induction h with
  | nil => exact .nil
  | @cons a b as bs hr _ ih =>
    rw [filterAlong, List.zip_cons_cons, List.filter_cons, List.filter_cons]
    by_cases hp : p b = true
    · rw [if_pos hp, if_pos hp]
      exact .cons hr ih
    · rw [if_neg hp, if_neg hp]
      exact ih

end Along

namespace Pass

/-- The numbers of the enumeration mappings of a mapping that a pass leaves there, when each has a
number before. -/
def carry (p : Pass) (g : Graph) (h : Handle) (numbers : List Nat) : List Nat :=
  match p with
  | .sweep => filterAlong (g.spares h) numbers (g.enumerationMappings h)
  | _ => numbers

def carryAll : List Pass → Graph → Handle → List Nat → List Nat
  | [], _, _, numbers => numbers
  | p :: ps, g, h, numbers => carryAll ps (p.run g) h (p.carry g h numbers)

/-- The positions that the enumeration mappings had which are left by several passes. -/
def survivors (ps : List Pass) (g : Graph) (h : Handle) : List Nat :=
  carryAll ps g h (List.range (g.enumerationMappings h).length)

end Pass

section Ascending

variable {l : List Nat} (hl : l.Pairwise (· < ·))
include hl

theorem add_le_of_ascending {i n x y : Nat} (hx : l[i]? = some x) (hy : l[i + n]? = some y) :
    x + n ≤ y := by
  induction n generalizing y with
  | zero => exact Nat.le_of_eq (Option.some.inj (hx.symm.trans hy))
  | succ n ih =>
    obtain ⟨hlt, rfl⟩ := List.getElem?_eq_some_iff.mp hy
    have hprev := ih (List.getElem?_eq_getElem (Nat.lt_of_succ_lt hlt))
    have hstep := List.pairwise_iff_getElem.mp hl _ _ (Nat.lt_of_succ_lt hlt) hlt (Nat.lt_succ_self _)
    omega

theorem position_le_of_ascending {i x : Nat} (hx : l[i]? = some x) : i ≤ x := by
  obtain ⟨hlt, -⟩ := List.getElem?_eq_some_iff.mp hx
  have hfirst := List.getElem?_eq_getElem (Nat.zero_lt_of_lt hlt)
  have hle := add_le_of_ascending hl hfirst ((Nat.zero_add i).symm ▸ hx)
  omega

theorem getElem?_of_forall_mem {i : Nat} (hall : ∀ k ≤ i, k ∈ l) : l[i]? = some i := by
  induction i using Nat.strongRecOn with
  | ind i ih =>
    obtain ⟨p, hp⟩ := List.mem_iff_getElem?.mp (hall i (Nat.le_refl i))
    have hle := position_le_of_ascending hl hp
    by_cases hlt : p < i
    · have hsame := ih p hlt fun k hk => hall k (by omega)
      rw [hp, Option.some.injEq] at hsame
      omega
    · obtain rfl : p = i := by omega
      exact hp

theorem eq_position_iff {i j : Nat} (hi : l[i]? = some j) : j = i ↔ ∀ k ≤ i, k ∈ l := by
  constructor
  · rintro rfl k hk
    obtain ⟨hlt, -⟩ := List.getElem?_eq_some_iff.mp hi
    have hx := List.getElem?_eq_getElem (Nat.lt_of_le_of_lt hk hlt)
    have hlow := position_le_of_ascending hl hx
    have hhigh := add_le_of_ascending hl (n := j - k) hx ((Nat.add_sub_of_le hk).symm ▸ hi)
    have hown : l[k] = k := by omega
    exact List.mem_of_getElem? (hown ▸ hx)
  · intro hall
    rw [getElem?_of_forall_mem hl hall, Option.some.injEq] at hi
    exact hi.symm

end Ascending

namespace Graph

open Pass

variable {g : Graph}

theorem setImplementation?_run (p : Pass) (g : Graph) (h : Handle) (i : Nat) :
    ((p.run g).setImplementation? ⟨h, i⟩).map SetImplementation.skeleton =
      (g.setImplementation? ⟨h, i⟩).map SetImplementation.skeleton := by
  by_cases hp : p = .sweep
  · rw [hp, run, slots_sweep]
  · rw [setImplementation?_skeleton, setImplementation?_skeleton, skeleton?_run hp]

theorem setImplementation?_runAll (ps : List Pass) (g : Graph) (h : Handle) (i : Nat) :
    ((runAll ps g).setImplementation? ⟨h, i⟩).map SetImplementation.skeleton =
      (g.setImplementation? ⟨h, i⟩).map SetImplementation.skeleton := by
  induction ps generalizing g with
  | nil => rfl
  | cons p ps ih => exact (ih (p.run g)).trans (setImplementation?_run p g h i)

theorem forall₂_carry {R : Nat → EnumerationMapping → Prop} (p : Pass) {h : Handle}
    {numbers : List Nat}
    (hr : List.Forall₂ (fun n m => R n m.skeleton) numbers (g.enumerationMappings h)) :
    List.Forall₂ (fun n m => R n m.skeleton) (p.carry g h numbers)
      ((p.run g).enumerationMappings h) := by
  by_cases hp : p = .sweep
  · rw [hp, run, enumerationMappings_sweep]
    exact forall₂_filterAlong (g.spares h) hr
  · have hcarry : p.carry g h numbers = numbers := by
      cases p <;> first | rfl | exact absurd rfl hp
    have hsame : ((p.run g).enumerationMappings h).map EnumerationMapping.skeleton =
        (g.enumerationMappings h).map EnumerationMapping.skeleton := by
      rw [enumerationMappings_skeleton, enumerationMappings_skeleton, skeleton?_run hp]
    rw [hcarry]
    rw [← List.forall₂_map_right_iff (R := R)] at hr ⊢
    rwa [hsame]

theorem forall₂_carryAll {R : Nat → EnumerationMapping → Prop} (ps : List Pass) {h : Handle}
    {numbers : List Nat}
    (hr : List.Forall₂ (fun n m => R n m.skeleton) numbers (g.enumerationMappings h)) :
    List.Forall₂ (fun n m => R n m.skeleton) (carryAll ps g h numbers)
      ((runAll ps g).enumerationMappings h) := by
  induction ps generalizing g numbers with
  | nil => exact hr
  | cons p ps ih => exact ih (forall₂_carry p hr)

theorem carry_sublist (p : Pass) (g : Graph) (h : Handle) (numbers : List Nat) :
    (p.carry g h numbers).Sublist numbers := by
  cases p with
  | sweep => exact filterAlong_sublist _ numbers _
  | _ => exact .refl numbers

theorem carryAll_sublist (ps : List Pass) (g : Graph) (h : Handle) (numbers : List Nat) :
    (carryAll ps g h numbers).Sublist numbers := by
  induction ps generalizing g numbers with
  | nil => exact .refl numbers
  | cons p ps ih => exact (ih (p.run g) (p.carry g h numbers)).trans (carry_sublist p g h numbers)

theorem survivors_sublist (ps : List Pass) (g : Graph) (h : Handle) :
    (survivors ps g h).Sublist (List.range (g.enumerationMappings h).length) :=
  carryAll_sublist ps g h _

theorem enumerationMapping?_runAll (ps : List Pass) (g : Graph) (h : Handle) (i : Nat) :
    ((runAll ps g).enumerationMapping? ⟨h, i⟩).map EnumerationMapping.skeleton =
      (survivors ps g h)[i]?.bind fun j =>
        (g.enumerationMapping? ⟨h, j⟩).map EnumerationMapping.skeleton := by
  let R (j : Nat) (m : EnumerationMapping) : Prop :=
    (g.enumerationMapping? ⟨h, j⟩).map EnumerationMapping.skeleton = some m
  have hstart : List.Forall₂ (fun j m => R j m.skeleton)
      (List.range (g.enumerationMappings h).length) (g.enumerationMappings h) := by
    rw [List.forall₂_iff_get]
    refine ⟨List.length_range, fun i hi hi' => ?_⟩
    simp [R, enumerationMapping?_eq, List.getElem?_eq_getElem hi']
  have hleft := List.forall₂_iff_get.mp (forall₂_carryAll (R := R) ps hstart)
  rw [enumerationMapping?_eq]
  by_cases hi : i < (survivors ps g h).length
  · have hi' : i < ((runAll ps g).enumerationMappings h).length := hleft.1 ▸ hi
    rw [List.getElem?_eq_getElem hi, List.getElem?_eq_getElem hi', Option.bind_some]
    exact (hleft.2 i hi hi').symm
  · have hi' : ¬i < ((runAll ps g).enumerationMappings h).length := hleft.1 ▸ hi
    rw [List.getElem?_eq_none (Nat.le_of_not_lt hi), List.getElem?_eq_none (Nat.le_of_not_lt hi')]
    rfl

/-- Whatever passes go over a graph, a handle of a set implementation names the same one as before.
The enumeration mappings that are left in a mapping are the survivors, in their order, so that a
handle which still names one names that of before exactly if none up to it has gone. -/
theorem handles_after_passes (ps : List Pass) (g : Graph) (h : Handle) :
    (∀ i, ((runAll ps g).setImplementation? ⟨h, i⟩).map SetImplementation.skeleton =
      (g.setImplementation? ⟨h, i⟩).map SetImplementation.skeleton) ∧
    (∀ i, ((runAll ps g).enumerationMapping? ⟨h, i⟩).map EnumerationMapping.skeleton =
      (survivors ps g h)[i]?.bind fun j =>
        (g.enumerationMapping? ⟨h, j⟩).map EnumerationMapping.skeleton) ∧
    (survivors ps g h).Sublist (List.range (g.enumerationMappings h).length) ∧
    ∀ i j, (survivors ps g h)[i]? = some j → (j = i ↔ ∀ k ≤ i, k ∈ survivors ps g h) := by
  have hsub := survivors_sublist ps g h
  refine ⟨setImplementation?_runAll ps g h, enumerationMapping?_runAll ps g h, hsub, ?_⟩
  intro i j hi
  exact eq_position_iff (List.pairwise_lt_range.sublist hsub) hi

/-- Two enumerations, and a mapping with an enumeration mapping of each. -/
def codesGraph : Graph :=
  (Change.create ⟨"M"⟩ (.mapping { enumerationMappings :=
      [{ id := .explicit "a", enumeration := .ofText "A" },
        { id := .explicit "b", enumeration := .ofText "B" }] })).run
    ((Change.create ⟨"B"⟩ (.enumeration {})).run
      ((Change.create ⟨"A"⟩ (.enumeration {})).run (new Preset.full)))

/-- When the first enumeration is deleted, the handle of its enumeration mapping comes to name that
of the second one. -/
theorem handle_after_deletion : Reached (fun g c => c.Allowed g) Preset.full codesGraph ∧
    survivors [.resolve, .delete ⟨12⟩, .sweep] codesGraph ⟨14⟩ = [1] ∧
    (codesGraph.enumerationMapping? ⟨⟨14⟩, 0⟩).map (·.id.value) = some "a" ∧
    ((runAll [.resolve, .delete ⟨12⟩, .sweep] codesGraph).enumerationMapping? ⟨⟨14⟩, 0⟩).map
      (·.id.value) = some "b" :=
  ⟨((Reached.new.change rfl).change rfl).change rfl, by decide +kernel,
    by decide +kernel, by decide +kernel⟩

end Graph
end ModelGraph
