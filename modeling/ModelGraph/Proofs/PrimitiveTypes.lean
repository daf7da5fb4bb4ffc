import ModelGraph.Proofs.Sweeps

namespace ModelGraph

def primitivePaths : List Path := Graph.primitiveNames.map Path.mk

/-- A handle that no primitive type has. -/
def Handle.IsLater (h : Handle) : Prop := Graph.primitiveNames.length ≤ h.slot

instance (h : Handle) : Decidable h.IsLater := inferInstanceAs (Decidable (_ ≤ _))

def Element.IsPrimitive (e : Element) : Prop := ∃ name, e = (Element.new name .primitiveType).freeze

/-- The primitive types are not renamed, deleted or edited. -/
def Change.SparesPrimitives : Change → Prop
  | .delete h | .rename h _ | .edit _ h => h.IsLater
  | _ => True

theorem Path.nest_not_primitive (p : Path) (name : String) : p.nest name ∉ primitivePaths := by
  intro hm
  obtain ⟨n, hn, he⟩ := List.mem_map.mp hm
  have hcolon : ∀ n ∈ Graph.primitiveNames, ':' ∉ n.toList := by decide
  have ht : n = p.text ++ "::" ++ name := congrArg Path.text he
  apply hcolon n hn
  simp [ht]

namespace Index

variable {p : Path}

theorem filter_put {α : Type} (hp : p ∉ primitivePaths) (a : α) (entries : List (Path × α)) :
    (put p a entries).filter (fun e => e.1 ∈ primitivePaths) =
      entries.filter fun e => e.1 ∈ primitivePaths := by
  induction entries with
  | nil => simp [put, hp]
  | cons e entries ih =>
    obtain ⟨q, b⟩ := e
    rw [put]
    by_cases hq : q = p
    · rw [if_pos hq]
      simp [hq, hp]
    · rw [if_neg hq, List.filter_cons, List.filter_cons, ih]

theorem filter_erase {α : Type} (hp : p ∉ primitivePaths) (x : Index α) :
    (x.erase p).entries.filter (fun e => e.1 ∈ primitivePaths) =
      x.entries.filter fun e => e.1 ∈ primitivePaths := by
  rw [erase, List.filter_filter]
  apply List.filter_congr
  intro e _
  by_cases he : e.1 ∈ primitivePaths
  · have hne : e.1 ≠ p := fun h => hp (h ▸ he)
    simp [he, hne]
  · simp [he]

end Index

namespace Graph

variable {r : Registry} {g g' : Graph} {h : Handle} {e : Element}

/-- The primitive types are as in the new graph, nothing else has one of their paths, and no package
owns one of them. -/
structure Seeded (r : Registry) (g : Graph) : Prop where
  element : ∀ h, ¬h.IsLater → g.element? h = (new r).element? h
  entries : g.index.entries.filter (fun e => e.1 ∈ primitivePaths) = (new r).index.entries
  roster : g.roster.filter (fun post => ¬post.2.IsLater) = (new r).roster
  foreign : ∀ h e, h.IsLater → g.element? h = some e → e.path ∉ primitivePaths
  owned : ∀ o p c, g.element? o = some p → c ∈ p.body.children → c.IsLater

theorem element?_new (r : Registry) (h : Handle) : (new r).element? h =
    (primitiveNames[h.slot]?).map fun n => (Element.new n .primitiveType).freeze := by
  have ha : (new r).elements =
      (primitiveNames.map fun n => (Element.new n .primitiveType).freeze).toArray := rfl
  rw [element?, ha, List.getElem?_toArray, List.getElem?_map]

theorem paths_new (r : Registry) : (new r).index.paths = primitivePaths := rfl

theorem isPrimitive_new (he : (new r).element? h = some e) : e.IsPrimitive := by
  rw [element?_new, Option.map_eq_some_iff] at he
  obtain ⟨n, _, rfl⟩ := he
  exact ⟨n, rfl⟩

theorem not_isLater_new (he : (new r).element? h = some e) : ¬h.IsLater := by
  rw [element?_new, Option.map_eq_some_iff] at he
  obtain ⟨n, hn, _⟩ := he
  exact Nat.not_le_of_lt (List.getElem?_eq_some_iff.mp hn).1

theorem seeded_new (r : Registry) : (new r).Seeded r where
  element := fun _ _ => rfl
  entries := rfl
  roster := rfl
  foreign := fun h e hh he => absurd hh (not_isLater_new he)
  owned := by
    intro o p c hp hm
    obtain ⟨n, rfl⟩ := isPrimitive_new hp
    exact absurd hm List.not_mem_nil

theorem cleanedAll_primitive (isDead : Handle → Bool) (cs : List Cleaner) (name : String) :
    cleanedAll isDead cs (Element.new name .primitiveType).freeze =
      (Element.new name .primitiveType).freeze := by
  induction cs with
  | nil => rfl
  | cons c cs ih => exact ih

namespace Seeded

theorem isPrimitive (s : Seeded r g) (hh : ¬h.IsLater) (he : g.element? h = some e) :
    e.IsPrimitive := by
  rw [s.element h hh] at he
  exact isPrimitive_new he

theorem isLater_of_package (s : Seeded r g) (he : g.element? h = some e) (hk : e.kind = .package) :
    h.IsLater := by
  by_cases hh : h.IsLater
  · exact hh
  · obtain ⟨n, rfl⟩ := s.isPrimitive hh he
    cases hk

theorem lookup_primitive (s : Seeded r g) {p : Path} (hp : p ∈ primitivePaths) :
    ∃ h, g.lookup p = some h := by
  rw [← paths_new r, Index.paths, ← s.entries, List.mem_map] at hp
  obtain ⟨e, he, rfl⟩ := hp
  exact ⟨e.2, Index.get?_eq_some_iff.mpr (List.mem_filter.mp he).1⟩

theorem size_later (s : Seeded r g) : Handle.IsLater ⟨g.elements.size⟩ := by
  have hlast : ¬(Handle.mk (primitiveNames.length - 1)).IsLater := by decide
  have he := s.element _ hlast
  have hlt := slot_lt_of_element? (he.trans (element?_new r _))
  simp only [Handle.IsLater] at *
  omega

theorem map_element (s : Seeded r g) (hh : ¬h.IsLater) {f : Element → Element}
    (hf : ∀ e, e.IsPrimitive → f e = e) : (g.element? h).map f = g.element? h := by
  cases he : g.element? h with
  | none => rfl
  | some e => exact congrArg some (hf e (s.isPrimitive hh he))

theorem keeps (s : Seeded r g) (k : Keeps Element.place g g')
    (he : ∀ h, ¬h.IsLater → g'.element? h = g.element? h) : Seeded r g' where
  element := fun h hh => (he h hh).trans (s.element h hh)
  entries := k.index ▸ s.entries
  roster := k.roster ▸ s.roster
  foreign := by
    intro h e hh he
    obtain ⟨e', he', hp⟩ := k.symm.element? he
    have hpath : e'.path = e.path := congrArg ElementPlace.path hp
    exact hpath ▸ s.foreign h e' hh he'
  owned := by
    intro o p c hp hm
    obtain ⟨p', hp', hplace⟩ := k.symm.element? hp
    have hc : p'.body.children = p.body.children := congrArg ElementPlace.children hplace
    exact s.owned o p' c hp' (hc ▸ hm)

/-- An element that is no primitive type gets another path that is not one of theirs. -/
theorem move (s : Seeded r g) (hh : h.IsLater) {f : Element → Element} {path : Path}
    (hp : path ∉ primitivePaths) (hf : ∀ e, (f e).path = path)
    (hc : ∀ e, (f e).body.children = e.body.children) : Seeded r (g.update f h) where
  element := by
    intro i hi
    have hne : i ≠ h := fun he => hi (he ▸ hh)
    rw [element?_update, if_neg hne]
    exact s.element i hi
  entries := s.entries
  roster := s.roster
  foreign := by
    intro i e hi he
    rw [element?_update] at he
    split at he
    · obtain ⟨e, _, rfl⟩ := Option.map_eq_some_iff.mp he
      exact hf e ▸ hp
    · exact s.foreign i e hi he
  owned := by
    intro o p c ho hm
    rw [element?_update] at ho
    split at ho
    · obtain ⟨p, hp, rfl⟩ := Option.map_eq_some_iff.mp ho
      exact s.owned o p c hp (hc p ▸ hm)
    · exact s.owned o p c ho hm

theorem reindex (s : Seeded r g) {old new : Path} (ho : old ∉ primitivePaths)
    (hn : new ∉ primitivePaths) (h : Handle) : Seeded r (g.reindex old new h) where
  element := s.element
  entries := by
    refine Eq.trans ?_ s.entries
    exact (Index.filter_put hn h _).trans (Index.filter_erase ho g.index)
  roster := s.roster
  foreign := s.foreign
  owned := s.owned

theorem push (s : Seeded r g) {owner : Option Handle} {path : Path} (f : g.Fits e owner path) :
    Seeded r (g.push e owner path).1 := by
  have hpath : path ∉ primitivePaths := by
    intro hp
    obtain ⟨h, hl⟩ := s.lookup_primitive hp
    rw [f.free] at hl
    cases hl
  have howner : ∀ o p, g.element? o = some p → owner = some o → p.kind = .package := by
    intro o p hp ho
    obtain ⟨q, hq, hk⟩ := f.owner_live o ho
    rwa [Option.some.inj (hp.symm.trans hq.1)]
  constructor
  case element =>
    intro h hh
    have hne : h ≠ ⟨g.elements.size⟩ := fun he => hh (he ▸ s.size_later)
    rw [f.element?_push, if_neg hne, ← s.element h hh]
    apply s.map_element hh
    rintro e ⟨n, rfl⟩
    unfold grown
    split <;> rfl
  case entries =>
    rw [index_push]
    exact (Index.filter_put hpath _ _).trans s.entries
  case roster =>
    rw [roster_push, List.filter_append, s.roster]
    simp [s.size_later]
  case foreign =>
    intro h x hh hx
    rw [f.element?_push] at hx
    split at hx
    · cases hx
      exact hpath
    · obtain ⟨y, hy, rfl⟩ := Option.map_eq_some_iff.mp hx
      rw [path_grown]
      exact s.foreign h y hh hy
  case owned =>
    intro o x c hx hm
    rw [f.element?_push] at hx
    split at hx
    · cases hx
      rw [Element.attach, f.childless] at hm
      exact absurd hm List.not_mem_nil
    · obtain ⟨p, hp, rfl⟩ := Option.map_eq_some_iff.mp hx
      rw [children_grown _ _ _ _ (howner o p hp)] at hm
      split at hm
      · rcases List.mem_append.mp hm with hm | hm
        · exact s.owned o p c hp hm
        · rw [List.mem_singleton.mp hm]
          exact s.size_later
      · exact s.owned o p c hp hm

theorem grows {P : Path → Body → Prop} (s : Seeded r g) (a : Grows P g g') : Seeded r g' := by
  induction a with
  | refl => exact s
  | push _ f _ ih => exact ih.push f

theorem retire (s : Seeded r g) (hh : h.IsLater) (hp : e.path ∉ primitivePaths) :
    Seeded r (g.retire h e) where
  element := by
    intro i hi
    rw [element?_retire, ← s.element i hi]
    apply s.map_element hi
    rintro x ⟨n, rfl⟩
    have hne : i ≠ h := fun he => hi (he ▸ hh)
    rw [marked, if_neg hne]
    unfold shrunk
    split <;> rfl
  entries := by
    rw [index_retire, Index.filter_erase hp, s.entries]
  roster := by
    rw [roster_retire, List.filter_filter, ← s.roster]
    apply List.filter_congr
    intro post _
    by_cases hl : post.2.IsLater
    · simp [hl]
    · have hne : post ≠ (e.kind, h) := by
        rintro rfl
        exact hl hh
      simp [hl, hne]
  foreign := by
    intro i x hi hx
    obtain ⟨y, hy, ht⟩ := (thinned_retire g h e).exists_element hx
    exact ht.path ▸ s.foreign i y hi hy
  owned := by
    intro o x c hx hm
    obtain ⟨y, hy, ht⟩ := (thinned_retire g h e).exists_element hx
    exact s.owned o y c hy (ht.children hm)

theorem retireTree (fuel : Nat) (s : Seeded r g) (hh : h.IsLater) :
    Seeded r (g.retireTree fuel h) := by
  induction fuel generalizing g h with
  | zero => exact s
  | succ fuel ih =>
    rw [Graph.retireTree]
    cases he : g.element? h with
    | none => exact s
    | some e =>
      simp only
      split
      · exact s
      · refine retire ?_ hh (s.foreign h e hh he)
        refine List.foldlRecOn e.body.children _ s ?_
        intro g' s' c hc
        exact ih s' (s.owned h e c he hc)

theorem relocateTree (fuel : Nat) {path : Path} {state : Graph × Moves} (s : Seeded r state.1) :
    Seeded r (Graph.relocateTree fuel h path state).1 := by
  induction fuel generalizing h path state with
  | zero => exact s
  | succ fuel ih =>
    rw [Renaming.relocateTree_succ]
    cases hb : state.1.body? h with
    | none => exact s
    | some body =>
      obtain ⟨e, he, rfl⟩ := Option.map_eq_some_iff.mp hb
      refine List.foldlRecOn (motive := fun state : Graph × Moves => Seeded r state.1)
        e.body.children _ s ?_
      intro state' s' c hc
      have hlater : c.IsLater := s.owned h e c he hc
      unfold Renaming.moveChild
      cases hce : state'.1.element? c with
      | none => exact s'
      | some x =>
        have hnest := path.nest_not_primitive x.name
        have hmoved := s'.move hlater (f := (·.relocate (path.nest x.name))) hnest
          (fun _ => rfl) fun _ => rfl
        exact ih (hmoved.reindex (s'.foreign c x hlater hce) hnest c)

theorem repoint (s : Seeded r g) (w : g.WellFormed) (moves : Moves) :
    Seeded r (g.repoint moves) := by
  refine s.keeps (keeps_repoint moves g).place fun h hh => ?_
  rw [Graph.repoint, w.element?_updateLive]
  apply s.map_element hh
  rintro e ⟨n, rfl⟩
  rfl

theorem renamed (s : Seeded r g) (a : Renaming g) (hh : a.root.IsLater) :
    Seeded r (a.outcome.1.repoint a.outcome.2) := by
  have hold : a.old ∉ primitivePaths := s.foreign a.root a.element hh a.live.1
  have hnew : a.new ∉ primitivePaths := by
    intro hp
    obtain ⟨h, hl⟩ := s.lookup_primitive hp
    exact absurd (hl.symm.trans a.free) (by simp)
  have hstart : Seeded r a.start :=
    (s.reindex hold hnew a.root).move hh hnew (fun _ => rfl) fun _ => rfl
  exact (hstart.relocateTree _).repoint a.wellFormed_outcome _

theorem resolveAll (s : Seeded r g) (w : g.WellFormed) : Seeded r g.resolveAll.1 := by
  refine s.keeps (keeps_resolveAll g).place fun h hh => ?_
  rw [Graph.resolveAll, w.element?_updateLive]
  apply s.map_element hh
  rintro e ⟨n, rfl⟩
  rfl

theorem sweep (s : Seeded r g) (w : g.WellFormed) : Seeded r g.sweep.1 := by
  refine s.keeps (keeps_sweep g) fun h hh => ?_
  rw [element?_sweep w]
  apply s.map_element hh
  rintro e ⟨n, rfl⟩
  exact cleanedAll_primitive g.isDeleted g.registry.cleaners n

theorem freeze (s : Seeded r g) : Seeded r g.freeze := by
  refine s.keeps (keeps_freeze g).place fun h hh => ?_
  rw [element?_freeze]
  apply s.map_element hh
  rintro e ⟨n, rfl⟩
  rfl

theorem run (s : Seeded r g) (w : g.WellFormed) {c : Change} (hc : c.Allowed g)
    (hs : c.SparesPrimitives) : Seeded r (c.run g) := by
  cases c with
  | create path body =>
    exact s.grows (grows_create (P := fun _ _ => True) w path (fun _ _ => trivial) trivial hc)
  | add e owner =>
    exact s.grows (grows_addStep (P := fun _ _ => True) g owner hc.2.1 hc.1 hc.2.2 trivial)
  | ensure path =>
    exact s.grows (grows_ensurePackage (P := fun _ _ => True) w path hc fun _ _ => trivial)
  | delete h =>
    rw [Change.run, delete]
    cases he : g.element? h with
    | none => exact s
    | some e =>
      simp only
      split
      · exact s
      split
      · exact s
      · exact s.retireTree g.fuel hs
  | rename h name =>
    obtain ⟨⟨e, hl⟩, hname⟩ := hc
    rw [Change.run]
    cases hr : g.rename h name with
    | error fault => exact s
    | ok g' =>
      rcases rename_eq_ok w hl hname hr with rfl | ⟨a, rfl, rfl⟩
      · exact s
      · exact s.renamed a hs
  | resolve => exact s.resolveAll w
  | sweep => exact s.sweep w
  | freeze => exact s.freeze
  | edit f h =>
    refine s.keeps (keeps_edit hc) fun i hi => ?_
    have hne : i ≠ h := fun he => hi (he ▸ hs)
    rw [Change.run, edit, element?_update, if_neg hne]

end Seeded

theorem Reached.seeded (a : Reached (fun g c => c.Allowed g ∧ c.SparesPrimitives) r g) :
    Seeded r g := by
  induction a with
  | new => exact seeded_new r
  | change a hc ih => exact ih.run (a.mono fun _ _ h => h.1).wellFormed hc.1 hc.2

end Graph
end ModelGraph
