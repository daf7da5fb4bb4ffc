import Mathlib.Data.Finset.Card
import Mathlib.Data.Finset.Range
import Mathlib.Logic.Relation
import ModelGraph.Graph.Mappings
import ModelGraph.Proofs.GraphUpdates

namespace ModelGraph.Graph

variable {g : Graph} {h k : Handle} {visited result : List Handle}

/-- The mappings that a mapping includes directly, without those that are deleted. -/
def openIncludes (g : Graph) (h : Handle) : List Handle :=
  (g.includes h).filter fun k => !g.isDeleted k

/-- A mapping includes another one, directly or by others that are not deleted. -/
def IncludesOpen (g : Graph) : Handle → Handle → Prop :=
  Relation.ReflTransGen fun h k => k ∈ g.openIncludes h

theorem includes_of_element?_none (hn : g.element? h = none) : g.includes h = [] := by
  rw [includes, mapping?, body?, hn]
  rfl

theorem openIncludes_of_includes (hi : g.includes h = []) : g.openIncludes h = [] := by
  rw [openIncludes, hi, List.filter_nil]

def collectNext (g : Graph) (fuel : Nat) (visited : List Handle) (k : Handle) : List Handle :=
  if visited.contains k then visited else g.collectIncludes fuel k (visited ++ [k])

theorem collectIncludes_succ (fuel : Nat) (h : Handle) (visited : List Handle) :
    g.collectIncludes (fuel + 1) h visited =
      (g.openIncludes h).foldl (g.collectNext fuel) visited := by
  rw [collectIncludes, openIncludes, List.foldl_filter]
  congr 1
  funext visited k
  rw [collectNext]
  cases g.isDeleted k <;> simp

theorem collectIncludes_of_includes {fuel : Nat} (hi : g.includes h = []) :
    g.collectIncludes fuel h visited = visited := by
  cases fuel with
  | zero => rfl
  | succ fuel => rw [collectIncludes_succ, openIncludes_of_includes hi, List.foldl_nil]

theorem collectIncludes_subset {P : Handle → Prop} (hP : ∀ k, P k → ∀ n ∈ g.openIncludes k, P n)
    {fuel : Nat} (hh : P h) (hv : ∀ k ∈ visited, P k) :
    ∀ k ∈ g.collectIncludes fuel h visited, P k := by
  induction fuel generalizing h visited with
  | zero => exact hv
  | succ fuel ih =>
    rw [collectIncludes_succ]
    refine List.foldlRecOn (motive := fun visited => ∀ k ∈ visited, P k) _ _ hv
      fun visited hv n hk => ?_
    have hn := hP h hh n hk
    rw [collectNext]
    split
    · exact hv
    · refine ih hn fun k hk => ?_
      rcases List.mem_append.mp hk with hk | hk
      · exact hv k hk
      · exact List.mem_singleton.mp hk ▸ hn

/-- A search keeps what was visited, in its place, and what it adds has all its includes found. -/
structure Closes (g : Graph) (visited result : List Handle) : Prop where
  kept : visited <+: result
  closed : ∀ k ∈ result, k ∉ visited → g.openIncludes k ⊆ result

theorem Closes.refl (visited : List Handle) : g.Closes visited visited :=
  ⟨List.prefix_rfl, fun _ hk hn => absurd hk hn⟩

theorem Closes.trans {middle : List Handle} (c : g.Closes visited middle)
    (c' : g.Closes middle result) : g.Closes visited result := by
  refine ⟨c.kept.trans c'.kept, fun k hk hn => ?_⟩
  by_cases hm : k ∈ middle
  · exact List.Subset.trans (c.closed k hm hn) c'.kept.subset
  · exact c'.closed k hk hm

def unvisited (g : Graph) (visited : List Handle) : Nat :=
  ((Finset.range g.elements.size).filter fun i => ⟨i⟩ ∉ visited).card

theorem unvisited_anti (hs : visited ⊆ result) : g.unvisited result ≤ g.unvisited visited := by
  refine Finset.card_le_card fun i hi => ?_
  rw [Finset.mem_filter] at hi ⊢
  exact ⟨hi.1, fun hv => hi.2 (hs hv)⟩

theorem unvisited_append_lt (hk : k.slot < g.elements.size) (hn : k ∉ visited) :
    g.unvisited (visited ++ [k]) < g.unvisited visited := by
  refine Finset.card_lt_card (Finset.ssubset_iff_of_subset ?_ |>.mpr ⟨k.slot, ?_, ?_⟩)
  · intro i hi
    rw [Finset.mem_filter] at hi ⊢
    exact ⟨hi.1, fun hv => hi.2 (List.mem_append_left _ hv)⟩
  · exact Finset.mem_filter.mpr ⟨Finset.mem_range.mpr hk, hn⟩
  · intro hi
    exact (Finset.mem_filter.mp hi).2 (List.mem_append_right _ (List.mem_singleton_self k))

theorem unvisited_lt_fuel (g : Graph) (visited : List Handle) : g.unvisited visited < g.fuel := by
  have hcard := Finset.card_filter_le (Finset.range g.elements.size) fun i => ⟨i⟩ ∉ visited
  rw [Finset.card_range] at hcard
  exact Nat.lt_succ_of_le hcard

/-- With fuel for all elements that have not been visited the search finds all that is included.
No fuel is needed where nothing is. -/
theorem closes_collectIncludes {fuel : Nat} (hf : g.includes h ≠ [] → g.unvisited visited < fuel) :
    g.Closes visited (g.collectIncludes fuel h visited) ∧
      g.openIncludes h ⊆ g.collectIncludes fuel h visited := by
  induction fuel generalizing h visited with
  | zero =>
    have hnone : g.includes h = [] := by
      by_contra hne
      exact absurd (hf hne) (Nat.not_lt_zero _)
    rw [openIncludes_of_includes hnone]
    exact ⟨.refl visited, List.nil_subset _⟩
  | succ fuel ih =>
    rw [collectIncludes_succ]
    have hfuel : g.openIncludes h ≠ [] → g.unvisited visited < fuel + 1 :=
      fun hne => hf fun hnone => hne (openIncludes_of_includes hnone)
    clear hf
    -- what is visited on the way to the last of the includes leaves less to be visited
    generalize g.openIncludes h = targets at hfuel ⊢
    induction targets generalizing visited with
    | nil => exact ⟨.refl visited, List.nil_subset _⟩
    | cons k targets ihTargets =>
      have hlt := hfuel (List.cons_ne_nil k targets)
      have hnext : g.Closes visited (g.collectNext fuel visited k) ∧
          k ∈ g.collectNext fuel visited k := by
        rw [collectNext]
        split
        next hc => exact ⟨.refl visited, by simpa using hc⟩
        next hc =>
          have hn : k ∉ visited := by simpa using hc
          have hfresh : g.includes k ≠ [] → g.unvisited (visited ++ [k]) < fuel := by
            intro hne
            cases he : g.element? k with
            | none => exact absurd (includes_of_element?_none he) hne
            | some e =>
              have := unvisited_append_lt (slot_lt_of_element? he) hn
              omega
          obtain ⟨hcloses, hincludes⟩ := ih hfresh
          have hk : k ∈ g.collectIncludes fuel k (visited ++ [k]) :=
            hcloses.kept.subset (List.mem_append_right _ (List.mem_singleton_self k))
          refine ⟨⟨(List.prefix_append _ _).trans hcloses.kept, fun n hm hne => ?_⟩, hk⟩
          by_cases hnk : n = k
          · exact hnk ▸ hincludes
          · exact hcloses.closed n hm (by simp [hne, hnk])
      have hless : targets ≠ [] → g.unvisited (g.collectNext fuel visited k) < fuel + 1 :=
        fun _ => lt_of_le_of_lt (unvisited_anti hnext.1.kept.subset) hlt
      obtain ⟨hrest, hsub⟩ := ihTargets hless
      exact ⟨hnext.1.trans hrest, List.cons_subset.mpr ⟨hrest.kept.subset hnext.2, hsub⟩⟩

theorem sources_eq (g : Graph) (h : Handle) : g.sources h = g.collectIncludes g.fuel h [h] := by
  obtain ⟨rest, hrest⟩ :=
    (closes_collectIncludes (h := h) fun _ => g.unvisited_lt_fuel [h]).1.kept
  rw [sources, includedMappings, ← hrest]
  rfl

/-- The sources of a mapping are the mapping itself and all that it includes along mappings that are
not deleted. -/
theorem mem_sources : k ∈ g.sources h ↔ g.IncludesOpen h k := by
  obtain ⟨hcloses, hincludes⟩ :=
    closes_collectIncludes (h := h) fun _ => g.unvisited_lt_fuel [h]
  rw [sources_eq]
  constructor
  · refine collectIncludes_subset (fun k hk n hn => hk.tail hn) .refl ?_ k
    exact fun n hn => List.mem_singleton.mp hn ▸ .refl
  · intro hi
    induction hi with
    | refl => exact hcloses.kept.subset (List.mem_singleton_self h)
    | @tail k n _ hn ih =>
      by_cases hk : k = h
      · exact hincludes (hk ▸ hn)
      · exact hcloses.closed k ih (by simpa using hk) hn

end ModelGraph.Graph
