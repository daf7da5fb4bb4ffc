import Mathlib.Data.List.Nodup
import Mathlib.Data.List.Perm.Subperm
import Mathlib.Logic.Relation
import ModelGraph.Graph.Lookup
import ModelGraph.Proofs.AnchoredGraphs

namespace ModelGraph

section BreadthFirst

variable {α : Type}

def LeadsIn (children : α → List α) (root : α) : (steps : Nat) → α → Prop
  | 0, a => a = root
  | steps + 1, a => ∃ b, LeadsIn children root steps b ∧ a ∈ children b

variable {children : α → List α} {root : α}

theorem reflTransGen_iff_leadsIn {a : α} :
    Relation.ReflTransGen (fun a b => b ∈ children a) root a ↔ ∃ n, LeadsIn children root n a := by
  constructor
  · intro h
    induction h with
    | refl => exact ⟨0, rfl⟩
    | tail _ hb ih =>
      obtain ⟨n, hn⟩ := ih
      exact ⟨n + 1, _, hn, hb⟩
  · rintro ⟨n, hn⟩
    induction n generalizing a with
    | zero => exact hn ▸ .refl
    | succ n ih =>
      obtain ⟨b, hb, ha⟩ := hn
      exact (ih hb).tail ha

/-- The layer is all that is a number of steps away from the root, and what was listed before it is
all that is nearer. -/
structure Layered (children : α → List α) (root : α) (steps : Nat) (listed layer : List α) :
    Prop where
  nodup : (listed ++ layer).Nodup
  mem_listed : ∀ a, a ∈ listed ↔ ∃ n < steps, LeadsIn children root n a
  mem : ∀ a, a ∈ listed ++ layer ↔ ∃ n < steps + 1, LeadsIn children root n a

namespace Layered

variable {steps : Nat} {listed layer l : List α}

theorem start (children : α → List α) (root : α) : Layered children root 0 [] [root] where
  nodup := List.nodup_singleton root
  mem_listed a := by simp
  mem a := by simp [LeadsIn]

theorem mem_of_nil (d : Layered children root steps listed []) {n : Nat} {a : α}
    (h : LeadsIn children root n a) : a ∈ listed := by
  have hlisted : ∀ a, a ∈ listed ↔ ∃ n < steps + 1, LeadsIn children root n a := by
    simpa using d.mem
  induction n generalizing a with
  | zero => exact (hlisted a).mpr ⟨0, by omega, h⟩
  | succ n ih =>
    obtain ⟨b, hb, ha⟩ := h
    obtain ⟨m, hm, hs⟩ := (d.mem_listed b).mp (ih hb)
    exact (hlisted a).mpr ⟨m + 1, by omega, b, hs, ha⟩

theorem steps_le (d : Layered children root steps listed layer) {n : Nat} {a : α}
    (ha : a ∉ listed) (h : LeadsIn children root n a) : steps ≤ n := by
  by_contra hlt
  exact ha ((d.mem_listed a).mpr ⟨n, by omega, h⟩)

theorem leadsIn (d : Layered children root steps listed layer) {a : α} (ha : a ∈ layer) :
    LeadsIn children root steps a := by
  have hfresh : a ∉ listed := fun hl => (List.nodup_append'.mp d.nodup).2.2 hl ha
  obtain ⟨n, hn, hs⟩ := (d.mem a).mp (List.mem_append_right _ ha)
  have hle := d.steps_le hfresh hs
  have hsteps : n = steps := by omega
  exact hsteps ▸ hs

end Layered

variable [DecidableEq α]

/-- What is not listed yet, each item where it comes first. -/
def newItems (listed : List α) : List α → List α
  | [] => []
  | a :: items =>
    if a ∈ listed then newItems listed items else a :: newItems (listed ++ [a]) items

/-- The third list has the members of the second one, a layer, and after them layer by layer what
they lead to: the next layer follows the order of the layer before it and leaves out whatever has
been listed. The first list has what was listed before the layer. -/
inductive BreadthFirst (children : α → List α) : List α → List α → List α → Prop
  | done {listed : List α} : BreadthFirst children listed [] []
  | layer {listed layer rest : List α} : layer ≠ [] →
      BreadthFirst children (listed ++ layer)
        (newItems (listed ++ layer) (layer.flatMap children)) rest →
      BreadthFirst children listed layer (layer ++ rest)

theorem mem_newItems {listed items : List α} {a : α} :
    a ∈ newItems listed items ↔ a ∈ items ∧ a ∉ listed := by
  induction items generalizing listed with
  | nil => simp [newItems]
  | cons b items ih =>
    rw [newItems]
    by_cases hb : b ∈ listed
    · rw [if_pos hb, ih, List.mem_cons]
      constructor
      · exact fun ⟨ha, hn⟩ => ⟨.inr ha, hn⟩
      · rintro ⟨rfl | ha, hn⟩
        · exact absurd hb hn
        · exact ⟨ha, hn⟩
    · rw [if_neg hb, List.mem_cons, ih, List.mem_cons]
      by_cases hab : a = b
      · subst hab
        simp [hb]
      · simp [hab]

theorem nodup_append_newItems {listed items : List α} (hn : listed.Nodup) :
    (listed ++ newItems listed items).Nodup := by
  induction items generalizing listed with
  | nil => simpa [newItems] using hn
  | cons b items ih =>
    rw [newItems]
    by_cases hb : b ∈ listed
    · rw [if_pos hb]
      exact ih hn
    · rw [if_neg hb, List.append_cons]
      exact ih (hn.append (List.nodup_singleton b) (by simpa using hb))

namespace BreadthFirst

theorem unique {listed layer l l' : List α} (d : BreadthFirst children listed layer l)
    (d' : BreadthFirst children listed layer l') : l = l' := by
  induction d generalizing l' with
  | done =>
    cases d' with
    | done => rfl
    | layer hne _ => exact absurd rfl hne
  | layer hne _ ih =>
    cases d' with
    | done => exact absurd rfl hne
    | layer _ hrest => rw [ih hrest]

end BreadthFirst

namespace Layered

variable {steps : Nat} {listed layer l : List α}

theorem next (d : Layered children root steps listed layer) :
    Layered children root (steps + 1) (listed ++ layer)
      (newItems (listed ++ layer) (layer.flatMap children)) where
  nodup := nodup_append_newItems d.nodup
  mem_listed := d.mem
  mem a := by
    rw [List.mem_append, mem_newItems, List.mem_flatMap]
    constructor
    · rintro (ha | ⟨⟨b, hb, ha⟩, -⟩)
      · obtain ⟨n, hn, hs⟩ := (d.mem a).mp ha
        exact ⟨n, by omega, hs⟩
      · obtain ⟨n, hn, hs⟩ := (d.mem b).mp (List.mem_append_right _ hb)
        exact ⟨n + 1, by omega, b, hs, ha⟩
    · rintro ⟨n, hn, hs⟩
      by_cases ha : a ∈ listed ++ layer
      · exact .inl ha
      -- what is not listed yet comes from the layer itself
      refine .inr ⟨?_, ha⟩
      have hsteps : n = steps + 1 := by
        by_contra hne
        exact ha ((d.mem a).mpr ⟨n, by omega, hs⟩)
      subst hsteps
      obtain ⟨b, hb, hab⟩ := hs
      refine ⟨b, ?_, hab⟩
      rcases List.mem_append.mp ((d.mem b).mpr ⟨steps, by omega, hb⟩) with hl | hl
      · obtain ⟨m, hm, hs⟩ := (d.mem_listed b).mp hl
        exact absurd ((d.mem a).mpr ⟨m + 1, by omega, b, hs, hab⟩) ha
      · exact hl

/-- A list in breadth first order has all that the root leads to, each member once, and none before
another one that is nearer. -/
theorem breadthFirst (d : Layered children root steps listed layer)
    (hl : BreadthFirst children listed layer l) :
    (listed ++ l).Nodup ∧ (∀ a, a ∈ listed ++ l ↔ ∃ n, LeadsIn children root n a) ∧
      l.Pairwise fun a b => ∀ n, LeadsIn children root n b →
        ∃ m ≤ n, LeadsIn children root m a := by
  induction hl generalizing steps with
  | @done listed =>
    refine ⟨d.nodup, fun a => ?_, .nil⟩
    rw [List.append_nil]
    exact ⟨fun ha => ((d.mem_listed a).mp ha).imp fun _ h => h.2, fun ⟨_, hs⟩ => d.mem_of_nil hs⟩
  | @layer listed layer rest _ _ ih =>
    obtain ⟨hnodup, hmem, hrest⟩ := ih d.next
    rw [List.append_assoc] at hnodup hmem
    refine ⟨hnodup, hmem, ?_⟩
    have hfresh : ∀ a ∈ layer ++ rest, a ∉ listed := fun a ha hb =>
      (List.nodup_append'.mp hnodup).2.2 hb ha
    have hnear : ∀ a ∈ layer, ∀ b ∈ layer ++ rest, ∀ n, LeadsIn children root n b →
        ∃ m ≤ n, LeadsIn children root m a := fun a ha b hb n hs =>
      ⟨steps, d.steps_le (hfresh b hb) hs, d.leadsIn ha⟩
    refine List.pairwise_append.mpr ⟨?_, hrest, fun a ha b hb => ?_⟩
    · refine List.pairwise_of_forall_mem_list fun a ha b hb => ?_
      exact hnear a ha b (List.mem_append_left _ hb)
    · exact hnear a ha b (List.mem_append_right _ hb)

end Layered

end BreadthFirst

namespace Graph

variable {g : Graph} {h k : Handle} {fuel : Nat} {listed layer : List Handle}

/-- A store includes an element: one of its includes is bound to it. Databases have includes, and so
have the stores that are extensions. -/
inductive Includes (g : Graph) (h k : Handle) : Prop
  | database {d : Database} {r : Reference .store} : g.body? h = some (.database d) →
      r ∈ d.includes → r.target = some k → Includes g h k
  | serviceStore {s : ServiceStore} {r : Reference .store} :
      g.body? h = some (.extension (.serviceStore s)) → r ∈ s.includes → r.target = some k →
      Includes g h k

theorem mem_includedStores_of_body {b : Body} {stores : List (Reference .store)}
    (hb : g.body? h = some b) (hs : b.storeIncludes? = some stores) :
    k ∈ g.includedStores h ↔ ∃ r ∈ stores, r.target = some k := by
  rw [includedStores, hb, Option.bind_some, hs, Option.getD_some, List.mem_filterMap]

theorem mem_includedStores : k ∈ g.includedStores h ↔ g.Includes h k := by
  constructor
  · intro hk
    cases hb : g.body? h with
    | none => simp [includedStores, hb] at hk
    | some b =>
      cases hs : b.storeIncludes? with
      | none => simp [includedStores, hb, hs] at hk
      | some stores =>
        obtain ⟨r, hr, ht⟩ := (mem_includedStores_of_body hb hs).mp hk
        cases b with
        | database d =>
          cases hs
          exact .database hb hr ht
        | extension x =>
          cases x with
          | serviceStore s =>
            cases hs
            exact .serviceStore hb hr ht
          | _ => cases hs
        | _ => cases hs
  · intro hi
    cases hi with
    | database hb hr ht => exact (mem_includedStores_of_body hb rfl).mpr ⟨_, hr, ht⟩
    | serviceStore hb hr ht => exact (mem_includedStores_of_body hb rfl).mpr ⟨_, hr, ht⟩

theorem links_of_storeIncludes {b : Body} {stores : List (Reference .store)}
    (hs : b.storeIncludes? = some stores) {r : Reference .store} (hr : r ∈ stores) :
    r.link ∈ b.links := by
  cases b with
  | database d =>
    cases hs
    exact List.mem_append_left _ (List.mem_map_of_mem hr)
  | extension x =>
    cases x with
    | serviceStore s =>
      cases hs
      exact List.mem_map_of_mem hr
    | _ => cases hs
  | _ => cases hs

theorem Anchored.exists_of_includes (a : g.Anchored) (hi : g.Includes h k) :
    ∃ e, g.element? k = some e := by
  have hlinks {b : Body} {stores : List (Reference .store)} {r : Reference .store}
      (hb : g.body? h = some b) (hs : b.storeIncludes? = some stores) (hr : r ∈ stores)
      (ht : r.target = some k) : ∃ e, g.element? k = some e := by
    obtain ⟨e, he, rfl⟩ := Option.map_eq_some_iff.mp hb
    exact a h e he r.link (links_of_storeIncludes hs hr) k ht
  cases hi with
  | database hb hr ht => exact hlinks hb rfl hr ht
  | serviceStore hb hr ht => exact hlinks hb rfl hr ht

theorem appendNew_eq (found items : List Handle) :
    appendNew found items = found ++ newItems found items := by
  induction items generalizing found with
  | nil => exact (List.append_nil found).symm
  | cons a items ih =>
    rw [appendNew, List.foldl_cons, ← appendNew, newItems]
    by_cases ha : a ∈ found
    · rw [if_pos (List.contains_iff_mem.mpr ha), if_pos ha, ih]
    · rw [if_neg (mt List.contains_iff_mem.mp ha), if_neg ha, ih,
        List.append_assoc, List.singleton_append]

theorem appendNew_append (found items more : List Handle) :
    appendNew (appendNew found items) more = appendNew found (items ++ more) :=
  List.foldl_append.symm

theorem closeStores_layer (g : Graph) (fuel : Nat) (listed layer next : List Handle) :
    g.closeStores (fuel + layer.length) listed.length (listed ++ layer ++ next) =
      g.closeStores fuel (listed ++ layer).length
        (appendNew (listed ++ layer ++ next) (layer.flatMap g.includedStores)) := by
  induction layer generalizing listed next with
  | nil => simp [appendNew]
  | cons a layer ih =>
    have hhead : (listed ++ a :: layer ++ next)[listed.length]? = some a := by simp
    have hstep : appendNew (listed ++ a :: layer ++ next) (g.includedStores a) =
        (listed ++ [a]) ++ layer ++
          (next ++ newItems (listed ++ a :: layer ++ next) (g.includedStores a)) := by
      rw [appendNew_eq]
      simp
    have hwalk := ih (listed ++ [a])
      (next ++ newItems (listed ++ a :: layer ++ next) (g.includedStores a))
    rw [← hstep, appendNew_append, List.length_append, List.length_singleton,
      List.append_assoc listed [a] layer] at hwalk
    rw [List.length_cons, ← Nat.add_assoc, closeStores, hhead, List.flatMap_cons]
    exact hwalk

theorem length_le_size (hn : listed.Nodup) (hl : ∀ k ∈ listed, ∃ e, g.element? k = some e) :
    listed.length ≤ g.elements.size := by
  have hslots : (listed.map Handle.slot).Nodup :=
    hn.map fun _ _ heq => congrArg Handle.mk heq
  have hsubset : listed.map Handle.slot ⊆ List.range g.elements.size := by
    intro i hi
    obtain ⟨k, hk, rfl⟩ := List.mem_map.mp hi
    obtain ⟨e, he⟩ := hl k hk
    exact List.mem_range.mpr (slot_lt_of_element? he)
  simpa using hslots.length_le_of_subset hsubset

/-- With fuel for all elements that are not listed the walk goes on until a layer is empty. -/
theorem breadthFirst_closeStores {P : Handle → Prop} (hP : ∀ a, P a → ∃ e, g.element? a = some e)
    (hnext : ∀ a, P a → ∀ b ∈ g.includedStores a, P b) (hn : (listed ++ layer).Nodup)
    (hl : ∀ a ∈ listed ++ layer, P a) (hf : g.elements.size ≤ listed.length + fuel) :
    ∃ l, BreadthFirst g.includedStores listed layer l ∧
      g.closeStores fuel listed.length (listed ++ layer) = listed ++ l := by
  induction fuel using Nat.strong_induction_on generalizing listed layer with
  | _ fuel ih =>
    by_cases hempty : layer = []
    · subst hempty
      refine ⟨[], .done, ?_⟩
      cases fuel with
      | zero => rfl
      | succ fuel => simp [closeStores]
    have hpos : 0 < layer.length := List.length_pos_iff.mpr hempty
    have hsize : (listed ++ layer).length ≤ g.elements.size :=
      length_le_size hn fun a ha => hP a (hl a ha)
    rw [List.length_append] at hsize
    obtain ⟨rest, rfl⟩ : ∃ rest, fuel = rest + layer.length := ⟨fuel - layer.length, by omega⟩
    have hmore : ∀ a ∈ listed ++ layer ++
        newItems (listed ++ layer) (layer.flatMap g.includedStores), P a := by
      intro a ha
      rw [List.mem_append, mem_newItems, List.mem_flatMap] at ha
      rcases ha with ha | ⟨⟨b, hb, hab⟩, -⟩
      · exact hl a ha
      · exact hnext b (hl b (List.mem_append_right _ hb)) a hab
    obtain ⟨l, hrest, heq⟩ := ih rest (by omega) (nodup_append_newItems hn) hmore
      (by rw [List.length_append]; omega)
    refine ⟨layer ++ l, .layer hempty hrest, ?_⟩
    have hlayer := closeStores_layer g rest listed layer []
    rw [List.append_nil] at hlayer
    rw [hlayer, appendNew_eq, heq, List.append_assoc]

/-- All that a store includes at any depth, each element once and the store itself first. The order
is that of a breadth first search: layer by layer, and no element after one that is further away. -/
structure IsStoreClosure (g : Graph) (h : Handle) (l : List Handle) : Prop where
  head : l.head? = some h
  nodup : l.Nodup
  mem_iff : ∀ k, k ∈ l ↔ Relation.ReflTransGen g.Includes h k
  breadthFirst : BreadthFirst g.includedStores [] [h] l
  nearer : l.Pairwise fun a b => ∀ n, LeadsIn g.includedStores h n b →
    ∃ m ≤ n, LeadsIn g.includedStores h m a

theorem isStoreClosure_closeStores
    (ha : ∀ k, Relation.ReflTransGen g.Includes h k → ∃ e, g.element? k = some e)
    (hf : g.elements.size ≤ fuel) : g.IsStoreClosure h (g.closeStores fuel 0 [h]) := by
  have hroot : ∀ a ∈ ([] ++ [h] : List Handle), Relation.ReflTransGen g.Includes h a := by
    simpa using .refl
  obtain ⟨l, hl, heq⟩ := breadthFirst_closeStores ha
    (fun a hr b hb => hr.tail (mem_includedStores.mp hb)) (List.nodup_singleton h) hroot
    (by simpa using hf)
  simp only [List.length_nil, List.nil_append] at heq
  rw [heq]
  obtain ⟨hnodup, hmem, hnear⟩ := (Layered.start g.includedStores h).breadthFirst hl
  rw [List.nil_append] at hnodup hmem
  refine ⟨?_, hnodup, fun k => ?_, hl, hnear⟩
  · cases hl with
    | layer _ _ => rfl
  · have hstep : (fun a b => b ∈ g.includedStores a) = g.Includes :=
      funext fun _ => funext fun _ => propext mem_includedStores
    rw [hmem, ← reflTransGen_iff_leadsIn, hstep]

theorem Anchored.exists_of_reachable (a : g.Anchored) (hh : ∃ e, g.element? h = some e)
    (hr : Relation.ReflTransGen g.Includes h k) : ∃ e, g.element? k = some e := by
  cases hr with
  | refl => exact hh
  | tail _ hi => exact a.exists_of_includes hi

theorem not_includes_of_element?_none (hn : g.element? h = none) : ¬g.Includes h k := by
  have hb : g.body? h = none := by rw [body?, hn, Option.map_none]
  rintro (⟨hd, -, -⟩ | ⟨hs, -, -⟩)
  · rw [hb] at hd
    cases hd
  · rw [hb] at hs
    cases hs

theorem Anchored.mem_storeClosure (a : g.Anchored) :
    k ∈ g.storeClosure h ↔ Relation.ReflTransGen g.Includes h k := by
  cases he : g.element? h with
  | some e =>
    have hall (n : Handle) (hr : Relation.ReflTransGen g.Includes h n) :=
      a.exists_of_reachable ⟨e, he⟩ hr
    exact (isStoreClosure_closeStores hall (Nat.le_succ g.elements.size)).mem_iff k
  | none =>
    have hnone : g.includedStores h = [] := List.eq_nil_iff_forall_not_mem.mpr fun k hk =>
      not_includes_of_element?_none he (mem_includedStores.mp hk)
    have hclosure : g.storeClosure h = [h] := by
      rw [storeClosure, fuel, closeStores]
      simp only [List.getElem?_cons_zero, hnone]
      cases g.elements.size <;> rfl
    rw [hclosure, List.mem_singleton]
    constructor
    · rintro rfl
      exact .refl
    · intro hr
      rcases Relation.ReflTransGen.cases_head hr with heq | ⟨n, hi, -⟩
      · exact heq.symm
      · exact absurd hi (not_includes_of_element?_none he)

/-- The stores that an element includes are listed breadth first, in whatever circles they include
each other, as long as all of them are elements of the graph: the list is the only one of its kind,
and more fuel changes nothing. They are elements of the graph in whatever way it has come about. -/
theorem stores_listed_breadthFirst :
    (∀ (g : Graph) (h : Handle),
      (∀ k, Relation.ReflTransGen g.Includes h k → ∃ e, g.element? k = some e) →
      g.IsStoreClosure h (g.storeClosure h) ∧
        (∀ l, g.IsStoreClosure h l → l = g.storeClosure h) ∧
        ∀ fuel, g.fuel ≤ fuel → g.closeStores fuel 0 [h] = g.storeClosure h) ∧
    ∀ (r : Registry) (g : Graph), r.OnlyRemoves → Kept r g →
      ∀ h, (∃ e, g.element? h = some e) →
        ∀ k, Relation.ReflTransGen g.Includes h k → ∃ e, g.element? k = some e := by
  constructor
  · intro g h ha
    have hclosure := isStoreClosure_closeStores ha (Nat.le_succ g.elements.size)
    refine ⟨hclosure, fun l hl => hl.breadthFirst.unique hclosure.breadthFirst, fun fuel hf => ?_⟩
    have hmore := isStoreClosure_closeStores ha ((Nat.le_succ _).trans hf)
    exact hmore.breadthFirst.unique hclosure.breadthFirst
  · exact fun r g hr k h hh _ => (k.anchored hr).exists_of_reachable hh

/-- Stores that include each other in a diamond and in circles. One of them is an extension. -/
def circlingStores : Graph :=
  Change.resolve.run
    ((Change.create ⟨"E"⟩ (.database {})).run
      ((Change.create ⟨"D"⟩ (.database { includes := [.ofText "B"] })).run
        ((Change.create ⟨"C"⟩ (.extension (.serviceStore
            { includes := [.ofText "E", .ofText "D", .ofText "A"] }))).run
          ((Change.create ⟨"B"⟩ (.database { includes := [.ofText "D"] })).run
            ((Change.create ⟨"A"⟩ (.database { includes := [.ofText "B", .ofText "C"] })).run
              (new Preset.full))))))

theorem kept_circlingStores : Kept Preset.full circlingStores :=
  (((((Kept.new.create ⟨"A"⟩ rfl (by decide)).create ⟨"B"⟩ rfl (by decide)).create ⟨"C"⟩ rfl
    (by decide)).create ⟨"D"⟩ rfl (by decide)).create ⟨"E"⟩ rfl (by decide)).change
      (c := .resolve) trivial trivial trivial

theorem stores_listed_breadthFirst_circling :
    (∃ e, circlingStores.element? ⟨12⟩ = some e) ∧ Kept Preset.full circlingStores ∧
      circlingStores.IsStoreClosure ⟨12⟩ [⟨12⟩, ⟨13⟩, ⟨14⟩, ⟨15⟩, ⟨16⟩] := by
  obtain ⟨hlisted, hkept⟩ := stores_listed_breadthFirst
  have hroot : ∃ e, circlingStores.element? ⟨12⟩ = some e := ⟨_, rfl⟩
  have hall := hkept Preset.full circlingStores (onlyRemoves_presets Preset.registry_all)
    kept_circlingStores ⟨12⟩ hroot
  exact ⟨hroot, kept_circlingStores, (hlisted circlingStores ⟨12⟩ hall).1⟩

end Graph
end ModelGraph
