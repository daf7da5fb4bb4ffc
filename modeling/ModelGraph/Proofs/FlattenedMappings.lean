import Mathlib.Data.List.Flatten
import Mathlib.Data.List.Nodup
import Mathlib.Data.List.Perm.Basic
import ModelGraph.Proofs.NamedSlots
import ModelGraph.Proofs.TypedMappings

namespace ModelGraph

/-- The second list has the members of the first one in order, each with all that is below it right
after it. -/
inductive DepthFirst {α : Type} (children : α → List α) : List α → List α → Prop
  | nil : DepthFirst children [] []
  | cons {a : α} {rest below more : List α} : DepthFirst children (children a) below →
      DepthFirst children rest more → DepthFirst children (a :: rest) (a :: below ++ more)

theorem DepthFirst.unique {α : Type} {children : α → List α} {roots l l' : List α}
    (d : DepthFirst children roots l) (d' : DepthFirst children roots l') : l = l' := by
  induction d generalizing l' with
  | nil => cases d'; rfl
  | cons _ _ ihBelow ihMore =>
    cases d' with
    | cons hbelow hmore => rw [ihBelow hbelow, ihMore hmore]

namespace Mapping

variable {m m' : Mapping}

theorem ownClassMappings_eq_foldl (m : Mapping) : m.ownClassMappings =
    (m.top.flatMap m.embeddedIn).foldl (m.collectNext m.slots.length) m.top := by
  rw [ownClassMappings, List.foldl_flatMap]
  exact List.foldl_ext _ _ _ fun found i _ => m.collectEmbedded_succ m.slots.length i found

theorem embeddedIn_congr
    (h : m'.slots.map SetImplementation.slots = m.slots.map SetImplementation.slots) :
    m'.embeddedIn = m.embeddedIn := by
  have heq (m : Mapping) (i : Nat) :
      m.embeddedIn i = (((m.slots.map SetImplementation.slots)[i]?).map Prod.fst).getD [] := by
    rw [embeddedIn, List.getElem?_map, Option.map_map]
    rfl
  funext i
  rw [heq, heq, h]

theorem collectNext_congr
    (h : m'.slots.map SetImplementation.slots = m.slots.map SetImplementation.slots) :
    m'.collectNext = m.collectNext := by
  funext fuel found i
  rw [collectNext, collectNext, collectEmbedded_congr h]

/-- A search passes over nothing that it has not found itself, so it finds nothing twice. -/
theorem nodup_collectEmbedded {fuel index : Nat} {found : List Nat} (hf : found.Nodup) :
    (m.collectEmbedded fuel index found).Nodup := by
  induction fuel generalizing index found with
  | zero => exact hf
  | succ fuel ih =>
    rw [collectEmbedded_succ]
    refine List.foldlRecOn (motive := List.Nodup) _ _ hf fun found hf i _ => ?_
    rw [collectNext]
    split
    · exact hf
    next hc => exact ih (hf.append (List.nodup_singleton i) (by simpa using hc))

theorem nodup_ownClassMappings (ht : m.top.Nodup) : m.ownClassMappings.Nodup :=
  List.foldlRecOn (motive := List.Nodup) _ _ ht fun _ hf _ _ => nodup_collectEmbedded hf

namespace IsForest

variable (hm : m.IsForest)
include hm

theorem before_embeddedIn {i n : Nat} (hn : n ∈ m.embeddedIn i) : n < i := by
  cases hs : m.slots[i]? with
  | none =>
    rw [embeddedIn, hs] at hn
    exact absurd hn List.not_mem_nil
  | some s =>
    rw [embeddedIn, hs] at hn
    exact hm.before hs n (List.mem_append_left _ hn)

theorem trees_embeddedIn_sublist {i : Nat} (hi : i < m.slots.length) :
    (i :: (m.embeddedIn i).flatMap m.tree).Sublist (m.tree i) := by
  have hs : m.slots[i]? = some m.slots[i] := List.getElem?_eq_getElem hi
  rw [hm.tree_of_slot hs, embeddedIn, hs]
  exact (List.Sublist.flatMap (List.sublist_append_left _ _) _).cons_cons i

/-- A search that meets trees in which nothing is found yet lists them depth first. -/
theorem foldl_collectNext {fuel : Nat} {slots found : List Nat}
    (hlt : ∀ i ∈ slots, i < fuel ∧ i < m.slots.length) (hn : (slots.flatMap m.tree).Nodup)
    (hd : found.Disjoint (slots.flatMap m.tree)) :
    ∃ l, slots.foldl (m.collectNext fuel) found = found ++ l ∧
      DepthFirst m.embeddedIn slots l ∧ l.Sublist (slots.flatMap m.tree) := by
  induction fuel generalizing slots found with
  | zero =>
    cases slots with
    | nil => exact ⟨[], by simp, .nil, List.Sublist.refl _⟩
    | cons i slots => exact absurd (hlt i List.mem_cons_self).1 (Nat.not_lt_zero i)
  | succ fuel ih =>
    induction slots generalizing found with
    | nil => exact ⟨[], by simp, .nil, List.Sublist.refl _⟩
    | cons i slots ihSlots =>
      obtain ⟨hfuel, hi⟩ := hlt i List.mem_cons_self
      have htree := hm.trees_embeddedIn_sublist hi
      rw [List.flatMap_cons] at hn hd
      obtain ⟨hnTree, hnRest, hdRest⟩ := List.nodup_append'.mp hn
      obtain ⟨hdTree, hdSlots⟩ := List.disjoint_append_right.mp hd
      -- below the slot nothing is found but the slot itself
      have hltBelow : ∀ n ∈ m.embeddedIn i, n < fuel ∧ n < m.slots.length := by
        intro n hn
        have hni := hm.before_embeddedIn hn
        omega
      obtain ⟨hrest, hnBelow⟩ := List.nodup_cons.mp (hnTree.sublist htree)
      have hdBelow : (found ++ [i]).Disjoint ((m.embeddedIn i).flatMap m.tree) := by
        rw [List.disjoint_append_left, List.singleton_disjoint]
        have hsub := ((List.sublist_cons_self i _).trans htree).subset
        exact ⟨List.disjoint_of_subset_right hsub hdTree, hrest⟩
      obtain ⟨below, hbelow, hfirst, hsub⟩ := ih hltBelow hnBelow hdBelow
      have hnext : m.collectNext (fuel + 1) found i = found ++ i :: below := by
        have hfresh : i ∉ found := fun hf => hdTree hf (htree.subset List.mem_cons_self)
        rw [collectNext, if_neg (by simpa using hfresh), collectEmbedded_succ, hbelow,
          List.append_assoc, List.singleton_append]
      -- what is found there stands in other trees than what follows
      have hfound : (i :: below).Sublist (m.tree i) := (hsub.cons_cons i).trans htree
      have hdMore : (found ++ i :: below).Disjoint (slots.flatMap m.tree) :=
        List.disjoint_append_left.mpr
          ⟨hdSlots, List.disjoint_of_subset_left hfound.subset hdRest⟩
      obtain ⟨more, hmore, hothers, hsubMore⟩ :=
        ihSlots (fun n hn => hlt n (List.mem_cons_of_mem i hn)) hnRest hdMore
      refine ⟨i :: below ++ more, ?_, .cons hfirst hothers, ?_⟩
      · rw [List.foldl_cons, hnext, hmore, List.append_assoc]
      · rw [List.flatMap_cons]
        exact hfound.append hsubMore

/-- The trees of some of the slots at the top: these slots, and the trees of what is embedded in
them. -/
theorem nodup_trees {tops : List Nat} (ht : tops.Sublist m.top) :
    (tops ++ (tops.flatMap m.embeddedIn).flatMap m.tree).Nodup := by
  have hall : (tops.flatMap m.tree).Nodup :=
    (hm.trees_of_top.nodup_iff.mpr List.nodup_range).sublist (ht.flatMap m.tree)
  have hlt := hm.top_lt
  have hsub : (tops.flatMap fun i => [i] ++ (m.embeddedIn i).flatMap m.tree).Sublist
      (tops.flatMap m.tree) :=
    List.Sublist.flatMap_right tops fun i hi => hm.trees_embeddedIn_sublist (hlt i (ht.subset hi))
  have hperm := List.flatMap_append_perm tops (fun i => [i]) fun i =>
    (m.embeddedIn i).flatMap m.tree
  rw [List.flatMap_singleton', ← List.flatMap_assoc] at hperm
  exact hperm.nodup_iff.mpr (hall.sublist hsub)

end IsForest

theorem Converted.ownClassMappings_eq (hm : m.Converted) :
    ∃ below, m.ownClassMappings = m.top ++ below ∧
      (∀ l, DepthFirst m.embeddedIn (m.top.flatMap m.embeddedIn) l ↔ l = below) ∧
      m.ownClassMappings.Nodup := by
  have hn := nodup_ownClassMappings hm.top.1
  obtain ⟨r, path, j, read, hread, hslots, htop⟩ := hm
  have hforest := isForest_of_read hread
  have hlength : m.slots.length = read.slots.length := by simpa using congrArg List.length hslots
  obtain ⟨-, hnTrees, hd⟩ := List.nodup_append'.mp (hforest.nodup_trees htop)
  have hlt : ∀ n ∈ m.top.flatMap read.embeddedIn,
      n < read.slots.length ∧ n < read.slots.length := by
    intro n hn
    obtain ⟨i, hi, hni⟩ := List.mem_flatMap.mp hn
    have hlt := Nat.lt_trans (hforest.before_embeddedIn hni) (hforest.top_lt i (htop.subset hi))
    exact ⟨hlt, hlt⟩
  obtain ⟨below, hbelow, hfirst, -⟩ := hforest.foldl_collectNext hlt hnTrees hd
  rw [← embeddedIn_congr hslots] at hbelow hfirst
  refine ⟨below, ?_, fun l => ⟨fun hl => hl.unique hfirst, ?_⟩, hn⟩
  · rw [ownClassMappings_eq_foldl, collectNext_congr hslots, hlength, hbelow]
  · rintro rfl
    exact hfirst

end Mapping

namespace Graph

variable {g : Graph} {h k : Handle} {visited : List Handle}

theorem collectIncludes_induction {motive : List Handle → Prop}
    (append : ∀ visited k, k ∉ visited → motive visited → motive (visited ++ [k])) {fuel : Nat}
    (hv : motive visited) : motive (g.collectIncludes fuel h visited) := by
  induction fuel generalizing h visited with
  | zero => exact hv
  | succ fuel ih =>
    rw [collectIncludes_succ]
    refine List.foldlRecOn _ _ hv fun visited hv k _ => ?_
    rw [collectNext]
    split
    · exact hv
    next hc => exact ih (append visited k (by simpa using hc) hv)

theorem subset_collectIncludes {fuel : Nat} : visited ⊆ g.collectIncludes fuel h visited :=
  collectIncludes_induction (motive := (visited ⊆ ·))
    (fun _ _ _ hv => List.subset_append_of_subset_left _ hv) (List.Subset.refl visited)

theorem subset_collectNext {fuel : Nat} : visited ⊆ g.collectNext fuel visited k := by
  rw [collectNext]
  split
  · exact List.Subset.refl visited
  · exact List.Subset.trans (List.subset_append_left _ _) subset_collectIncludes

theorem nodup_sources (g : Graph) (h : Handle) : (g.sources h).Nodup := by
  rw [sources_eq]
  refine collectIncludes_induction (fun visited k hk hv => ?_) (List.nodup_singleton h)
  exact hv.append (List.nodup_singleton k) (by simpa using hk)

theorem collectIncludes_eq {fuel fuel' : Nat} (hf : g.unvisited visited < fuel)
    (hf' : g.unvisited visited < fuel') :
    g.collectIncludes fuel h visited = g.collectIncludes fuel' h visited := by
  induction fuel generalizing fuel' h visited with
  | zero => exact absurd hf (Nat.not_lt_zero _)
  | succ fuel ih =>
    obtain _ | fuel' := fuel'
    · exact absurd hf' (Nat.not_lt_zero _)
    rw [collectIncludes_succ, collectIncludes_succ]
    generalize g.openIncludes h = targets
    induction targets generalizing visited with
    | nil => rfl
    | cons k targets ihTargets =>
      have hnext : g.collectNext fuel visited k = g.collectNext fuel' visited k := by
        rw [collectNext, collectNext]
        split
        · rfl
        next hc =>
          have hn : k ∉ visited := by simpa using hc
          cases he : g.element? k with
          | none =>
            have hnone := includes_of_element?_none he
            rw [collectIncludes_of_includes hnone, collectIncludes_of_includes hnone]
          | some e =>
            have hlt := unvisited_append_lt (slot_lt_of_element? he) hn
            exact ih (by omega) (by omega)
      have hkept : g.unvisited (g.collectNext fuel' visited k) ≤ g.unvisited visited :=
        unvisited_anti subset_collectNext
      rw [List.foldl_cons, List.foldl_cons, hnext]
      exact ihTargets (by omega) (by omega)

theorem includedMappings_eq {fuel : Nat} (hf : g.fuel ≤ fuel) :
    (g.collectIncludes fuel h [h]).drop 1 = g.includedMappings h := by
  have hlt := g.unvisited_lt_fuel [h]
  rw [includedMappings, collectIncludes_eq (hlt.trans_le hf) hlt]

theorem mem_includedMappings : k ∈ g.includedMappings h ↔ k ≠ h ∧ g.IncludesOpen h k := by
  have hn := g.nodup_sources h
  rw [sources, List.nodup_cons] at hn
  rw [← mem_sources, sources, List.mem_cons]
  constructor
  · intro hk
    exact ⟨fun heq => hn.1 (heq ▸ hk), .inr hk⟩
  · rintro ⟨hne, heq | hk⟩
    · exact absurd heq hne
    · exact hk

theorem isDeleted_of_mem_includedMappings (hk : k ∈ g.includedMappings h) :
    g.isDeleted k = false := by
  obtain ⟨hne, hi⟩ := mem_includedMappings.mp hk
  cases hi with
  | refl => exact absurd rfl hne
  | tail _ hn => simpa using (List.mem_filter.mp hn).2

theorem foldl_fresh (found : List SetHandle) {more : List SetHandle} (hn : (found ++ more).Nodup) :
    more.foldl (fun found s => if found.contains s then found else found ++ [s]) found =
      found ++ more := by
  induction more generalizing found with
  | nil => exact (List.append_nil found).symm
  | cons s more ih =>
    have hs : s ∉ found := fun hf => (List.nodup_append'.mp hn).2.2 hf List.mem_cons_self
    rw [List.append_cons] at hn ⊢
    rw [List.foldl_cons, if_neg (by simpa using hs), ih _ hn]

theorem SuitsAll.exists_of_mem_includedMappings (s : g.SuitsAll)
    (hk : k ∈ g.includedMappings h) : ∃ m, g.mapping? k = some m := by
  obtain ⟨hne, hi⟩ := mem_includedMappings.mp hk
  cases hi with
  | refl => exact absurd rfl hne
  | @tail a _ _ hn =>
    have hmem := (List.mem_filter.mp hn).1
    rw [includes_eq] at hmem
    cases hm : g.mapping? a with
    | none =>
      rw [hm] at hmem
      cases hmem
    | some m =>
      rw [hm] at hmem
      exact (s.mapping hm).2 k hmem

theorem mapping_of_mem_ownClassMappings {s : SetHandle} (hs : s ∈ g.ownClassMappings h) :
    s.mapping = h := by
  rw [ownClassMappings] at hs
  split at hs
  · obtain ⟨i, -, rfl⟩ := List.mem_map.mp hs
    rfl
  · cases hs

section Made

variable (hmade : ∀ k m, g.mapping? k = some m → m.Made)
include hmade

theorem nodup_ownClassMappings (h : Handle) : (g.ownClassMappings h).Nodup := by
  rw [ownClassMappings]
  split
  next m hm =>
    have hn := Mapping.nodup_ownClassMappings (hmade h m hm).top.1
    exact hn.map fun _ _ hij => congrArg SetHandle.index hij
  · exact .nil

theorem allClassMappings_eq (h : Handle) :
    g.allClassMappings h =
        g.ownClassMappings h ++ (g.includedMappings h).flatMap g.ownClassMappings ∧
      (g.allClassMappings h).Nodup := by
  have hn : ((g.sources h).flatMap g.ownClassMappings).Nodup := by
    refine List.nodup_flatMap.mpr ⟨fun k _ => nodup_ownClassMappings hmade k, ?_⟩
    refine (g.nodup_sources h).imp fun {a b} hne t ha hb => hne ?_
    rw [← mapping_of_mem_ownClassMappings ha, mapping_of_mem_ownClassMappings hb]
  have hall : g.allClassMappings h = (g.sources h).flatMap g.ownClassMappings := foldl_fresh [] hn
  refine ⟨?_, hall ▸ hn⟩
  rw [hall, sources, List.flatMap_cons]

end Made

/-- The search for the mappings that are included comes to an end and yields, each once and without
the mapping that it starts from, what bound includes lead to along mappings that are not deleted. A
mapping that was read lists its class mappings at the top and then, depth first, what is embedded
below them; those of built graphs are such. The class mappings of a mapping and of those it includes
are the lists of all these one after the other, each class mapping once. -/
theorem inclusions_flatten :
    (∀ (g : Graph) (h : Handle),
      (g.includedMappings h).Nodup ∧ h ∉ g.includedMappings h ∧
      (∀ k, k ∈ g.includedMappings h ↔ k ≠ h ∧ g.IncludesOpen h k) ∧
      (∀ k ∈ g.includedMappings h, g.isDeleted k = false) ∧
      ∀ fuel, g.fuel ≤ fuel → (g.collectIncludes fuel h [h]).drop 1 = g.includedMappings h) ∧
    (∀ m : Mapping, m.Converted → ∃ below, m.ownClassMappings = m.top ++ below ∧
      (∀ l, DepthFirst m.embeddedIn (m.top.flatMap m.embeddedIn) l ↔ l = below) ∧
      m.ownClassMappings.Nodup) ∧
    (∀ r freeze model g, build r freeze model = .ok g → ∀ h e m, g.LiveAt h e →
      e.body = .mapping m → m.Converted) ∧
    (∀ g : Graph, (∀ k m, g.mapping? k = some m → m.Made) → ∀ h : Handle,
      g.allClassMappings h =
        g.ownClassMappings h ++ (g.includedMappings h).flatMap g.ownClassMappings ∧
      (g.allClassMappings h).Nodup) ∧
    ∀ g : Graph, g.Typed → (∀ k m, g.mapping? k = some m → m.Made) ∧
      ∀ h, ∀ k ∈ g.includedMappings h, ∃ m, g.mapping? k = some m := by
  refine ⟨fun g h => ?_, fun m hm => hm.ownClassMappings_eq,
    fun _ _ _ _ hb _ _ _ hl hm => converted_of_build hb hl hm,
    fun g hmade h => allClassMappings_eq hmade h, fun g a => ?_⟩
  · obtain ⟨hfresh, hn⟩ := List.nodup_cons.mp (g.nodup_sources h)
    exact ⟨hn, hfresh, fun k => mem_includedMappings,
      fun k hk => isDeleted_of_mem_includedMappings hk, fun fuel hf => includedMappings_eq hf⟩
  · exact ⟨fun k m hm => (a.suitsAll.mapping hm).1,
      fun h k hk => a.suitsAll.exists_of_mem_includedMappings hk⟩

/-- A mapping with two class mappings embedded in one at the top, and another one embedded in the
first of these. -/
def branchingMapping : Mapping where
  slots := [
    { id := .explicit "inner", target := .ofText "B", kind := .embedded [] },
    { id := .explicit "outer", target := .ofText "B"
      kind := .embedded [{ owner := .ofText "B", property := "b", kind := .embedded 0 }] },
    { id := .explicit "other", target := .ofText "B", kind := .embedded [] },
    { id := .explicit "main", target := .ofText "A"
      kind := .pureInstance none none [
        { owner := .ofText "A", property := "b", kind := .embedded 1 },
        { owner := .ofText "A", property := "b", kind := .embedded 2 }] }]
  top := [3]

theorem converted_branchingMapping : branchingMapping.Converted :=
  ⟨Preset.full, ⟨"M"⟩, .obj [("classMappings", .arr [instanceJson "main"
    [embeddedJson "A" "outer" [embeddedJson "B" "inner" []], embeddedJson "A" "other" []]])],
    branchingMapping, rfl, rfl, .refl _⟩

def circlingMapping : Mapping := { branchingMapping with includes := [.ofText "N"] }

def returningMapping : Mapping :=
  Mapping.addTop
    { id := .explicit "n", target := .ofText "A", kind := .pureInstance none none [] }
    { includes := [.ofText "O", .ofText "M"] }

def circlingGraph : Graph :=
  (Change.delete ⟨14⟩).run (Change.resolve.run ((Change.create ⟨"O"⟩ (.mapping {})).run
    ((Change.create ⟨"N"⟩ (.mapping returningMapping)).run
      ((Change.create ⟨"M"⟩ (.mapping circlingMapping)).run (new Preset.full)))))

theorem typed_circlingGraph : circlingGraph.Typed := by
  have hcircling : circlingMapping.Made :=
    (Mapping.Made.converted converted_branchingMapping).changed rfl (.refl _)
  have hreturning : returningMapping.Made := .addTop _ (.changed .empty rfl (.refl _))
  have hfirst := (Typed.new Preset.full).change (c := .create ⟨"M"⟩ (.mapping circlingMapping))
    (suits_of_unbound hcircling rfl)
  have hsecond := hfirst.change (c := .create ⟨"N"⟩ (.mapping returningMapping))
    (suits_of_unbound hreturning rfl)
  have hthird := hsecond.change (c := .create ⟨"O"⟩ (.mapping {})) (suits_of_unbound .empty rfl)
  exact (hthird.change (c := .resolve) trivial).change (c := .delete ⟨14⟩) trivial

theorem inclusions_flatten_circling :
    circlingGraph.includes ⟨13⟩ = [⟨14⟩, ⟨12⟩] ∧ circlingGraph.includes ⟨12⟩ = [⟨13⟩] ∧
    circlingGraph.includedMappings ⟨13⟩ = [⟨12⟩] ∧ circlingGraph.IncludesOpen ⟨13⟩ ⟨12⟩ ∧
    branchingMapping.ownClassMappings = [3, 1, 0, 2] ∧
    DepthFirst branchingMapping.embeddedIn [1, 2] [1, 0, 2] ∧
    circlingGraph.allClassMappings ⟨13⟩ = [⟨⟨13⟩, 0⟩] ++ [3, 1, 0, 2].map (SetHandle.mk ⟨12⟩) ∧
    (circlingGraph.allClassMappings ⟨13⟩).Nodup := by
  obtain ⟨hincluded, hown, -, hall, htyped⟩ := inclusions_flatten
  obtain ⟨-, -, hmem, -⟩ := hincluded circlingGraph ⟨13⟩
  obtain ⟨below, hbelow, hfirst, -⟩ := hown branchingMapping converted_branchingMapping
  obtain ⟨hmade, -⟩ := htyped circlingGraph typed_circlingGraph
  obtain ⟨-, hn⟩ := hall circlingGraph hmade ⟨13⟩
  have hopen := (hmem ⟨12⟩).mp (List.mem_singleton_self _ : _ ∈ [_])
  have hlist : [3] ++ [1, 0, 2] = [3] ++ below := hbelow
  obtain rfl := List.append_cancel_left hlist
  exact ⟨rfl, rfl, rfl, hopen.2, rfl, (hfirst _).mpr rfl, rfl, hn⟩

end Graph
end ModelGraph
