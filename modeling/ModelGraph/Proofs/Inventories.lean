import Mathlib.Data.List.Nodup
import Mathlib.Data.Prod.Basic

namespace ModelGraph

/-- A list holds all that stands at the places that `P` knows of, once for each place. -/
def Inventory {ι α : Type} (P : ι → α → Prop) (l : List α) : Prop :=
  ∃ found : List (ι × α), found.map Prod.snd = l ∧ (found.map Prod.fst).Nodup ∧
    ∀ i a, (i, a) ∈ found ↔ P i a

namespace Inventory

variable {ι κ α β : Type} {P Q : ι → α → Prop} {l m : List α}

theorem congr (v : Inventory P l) (h : ∀ i a, P i a ↔ Q i a) : Inventory Q l := by
  obtain ⟨found, hl, hn, hf⟩ := v
  exact ⟨found, hl, hn, fun i a => (hf i a).trans (h i a)⟩

theorem nil (h : ∀ i a, ¬P i a) : Inventory P [] :=
  ⟨[], rfl, .nil, fun i a => by simp [h]⟩

theorem singleton (i : ι) (a : α) : Inventory (fun j b => j = i ∧ b = a) [a] :=
  ⟨[(i, a)], rfl, List.nodup_singleton i, fun j b => by simp⟩

theorem getElem? (l : List α) : Inventory (fun (i : Nat) a => l[i]? = some a) l := by
  refine ⟨l.zipIdx.map Prod.swap, ?_, ?_, fun i a => ?_⟩
  · rw [List.map_map]
    exact List.zipIdx_map_fst 0 l
  · rw [List.map_map]
    change (l.zipIdx.map Prod.snd).Nodup
    rw [List.zipIdx_map_snd]
    exact List.nodup_range'
  · rw [List.mem_map]
    constructor
    · rintro ⟨⟨b, j⟩, hb, heq⟩
      cases heq
      exact List.mk_mem_zipIdx_iff_getElem?.mp hb
    · exact fun h => ⟨(a, i), List.mk_mem_zipIdx_iff_getElem?.mpr h, rfl⟩

theorem reindex (v : Inventory P l) {e : ι → κ} (he : Function.Injective e) :
    Inventory (fun k a => ∃ i, e i = k ∧ P i a) l := by
  obtain ⟨found, rfl, hn, hf⟩ := v
  refine ⟨found.map (Prod.map e id), ?_, ?_, fun k a => ?_⟩
  · rw [List.map_map]
    rfl
  · have hfst : (found.map (Prod.map e id)).map Prod.fst = (found.map Prod.fst).map e := by
      rw [List.map_map, List.map_map]
      rfl
    rw [hfst]
    exact hn.map he
  · rw [List.mem_map]
    constructor
    · rintro ⟨⟨i, b⟩, hb, heq⟩
      cases heq
      exact ⟨i, rfl, (hf i b).mp hb⟩
    · rintro ⟨i, rfl, hp⟩
      exact ⟨(i, a), (hf i a).mpr hp, rfl⟩

theorem append (v : Inventory P l) (v' : Inventory Q m) (hd : ∀ i a b, P i a → ¬Q i b) :
    Inventory (fun i a => P i a ∨ Q i a) (l ++ m) := by
  obtain ⟨found, rfl, hn, hf⟩ := v
  obtain ⟨found', rfl, hn', hf'⟩ := v'
  refine ⟨found ++ found', List.map_append, ?_, fun i a => ?_⟩
  · rw [List.map_append]
    refine hn.append hn' fun i hi hi' => ?_
    obtain ⟨⟨_, a⟩, ha, rfl⟩ := List.mem_map.mp hi
    obtain ⟨⟨_, b⟩, hb, rfl⟩ := List.mem_map.mp hi'
    exact hd _ a b ((hf _ a).mp ha) ((hf' _ b).mp hb)
  · rw [List.mem_append, hf, hf']

theorem filterMap (v : Inventory P l) (f : α → Option β) :
    Inventory (fun i b => ∃ a, P i a ∧ f a = some b) (l.filterMap f) := by
  obtain ⟨found, rfl, hn, hf⟩ := v
  refine ⟨found.filterMap fun x => (f x.2).map (Prod.mk x.1), ?_, ?_, fun i b => ?_⟩
  · rw [List.map_filterMap, List.filterMap_map]
    refine congrArg (List.filterMap · found) (funext fun x => ?_)
    simp only [Option.map_map, Function.comp_def, Option.map_id']
  · rw [List.Nodup, List.pairwise_map, List.pairwise_filterMap]
    refine (List.pairwise_map.mp hn).imp fun hne y hy z hz => ?_
    obtain ⟨b, -, rfl⟩ := Option.map_eq_some_iff.mp hy
    obtain ⟨c, -, rfl⟩ := Option.map_eq_some_iff.mp hz
    exact hne
  · rw [List.mem_filterMap]
    constructor
    · rintro ⟨⟨j, a⟩, ha, heq⟩
      obtain ⟨b', hb, heq⟩ := Option.map_eq_some_iff.mp heq
      cases heq
      exact ⟨a, (hf j a).mp ha, hb⟩
    · rintro ⟨a, ha, hb⟩
      exact ⟨(i, a), (hf i a).mpr ha, by rw [hb, Option.map_some]⟩

theorem map (v : Inventory P l) (f : α → β) :
    Inventory (fun i b => ∃ a, P i a ∧ f a = b) (l.map f) := by
  rw [← List.filterMap_eq_map]
  exact (v.filterMap (some ∘ f)).congr fun i b => by simp

theorem flatMap {Q : α → κ → β → Prop} {f : α → List β} (v : Inventory P l)
    (hq : ∀ a ∈ l, Inventory (Q a) (f a)) :
    Inventory (fun (k : ι × κ) b => ∃ a, P k.1 a ∧ Q a k.2 b) (l.flatMap f) := by
  have hall (a : α) : ∃ inner : List (κ × β), a ∈ l → inner.map Prod.snd = f a ∧
      (inner.map Prod.fst).Nodup ∧ ∀ k b, (k, b) ∈ inner ↔ Q a k b := by
    by_cases ha : a ∈ l
    · obtain ⟨inner, hinner⟩ := hq a ha
      exact ⟨inner, fun _ => hinner⟩
    · exact ⟨[], fun h => absurd h ha⟩
  choose inner hinner using hall
  obtain ⟨found, rfl, hn, hf⟩ := v
  have hmem {x : ι × α} (hx : x ∈ found) : x.2 ∈ found.map Prod.snd := List.mem_map_of_mem hx
  refine ⟨found.flatMap fun x => (inner x.2).map fun y => ((x.1, y.1), y.2), ?_, ?_, ?_⟩
  · rw [List.map_flatMap, List.flatMap_map]
    refine List.flatMap_congr fun x hx => ?_
    rw [List.map_map, ← (hinner x.2 (hmem hx)).1]
    rfl
  · rw [List.map_flatMap, List.nodup_flatMap]
    constructor
    · intro x hx
      have hfst : ((inner x.2).map fun y => ((x.1, y.1), y.2)).map Prod.fst =
          ((inner x.2).map Prod.fst).map (Prod.mk x.1) := by
        rw [List.map_map, List.map_map]
        rfl
      rw [hfst]
      exact (hinner x.2 (hmem hx)).2.1.map (Prod.mk_right_injective x.1)
    · refine (List.pairwise_map.mp hn).imp fun hne k hk hk' => ?_
      simp only [List.map_map, List.mem_map, Function.comp_def] at hk hk'
      obtain ⟨y, -, rfl⟩ := hk
      obtain ⟨z, -, heq⟩ := hk'
      exact hne (congrArg Prod.fst heq).symm
  · rintro ⟨i, k⟩ b
    rw [List.mem_flatMap]
    constructor
    · rintro ⟨x, hx, hb⟩
      obtain ⟨y, hy, heq⟩ := List.mem_map.mp hb
      cases heq
      exact ⟨x.2, (hf x.1 x.2).mp hx, ((hinner x.2 (hmem hx)).2.2 y.1 y.2).mp hy⟩
    · rintro ⟨a, ha, hb⟩
      have hx := (hf i a).mpr ha
      exact ⟨(i, a), hx, List.mem_map.mpr ⟨(k, b), ((hinner a (hmem hx)).2.2 k b).mpr hb, rfl⟩⟩

end Inventory
end ModelGraph
