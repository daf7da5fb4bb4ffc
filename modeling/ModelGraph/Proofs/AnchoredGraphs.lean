import ModelGraph.Proofs.BoundReferences
import ModelGraph.Proofs.FrozenGraphs
import ModelGraph.Proofs.TypedMappings

namespace ModelGraph

/-- The cleaners of a registry put no reference into a body. -/
def Registry.OnlyRemoves (r : Registry) : Prop :=
  ∀ clean ∈ r.cleaners, ∀ isDead x y, clean isDead x = some y → y.links ⊆ x.links

theorem Diagram.links_removeViews (ids : List String) (d : Diagram) :
    (d.removeViews ids).links ⊆ d.links :=
  List.map_subset _ (List.filter_subset_self _)

theorem SerializerSchema.links_removeDead (isDead : Handle → Bool) (s : SerializerSchema) :
    (s.removeDead isDead).links ⊆ s.links := by
  have hincluded : (s.removeDead isDead).included.map Reference.link ⊆
      s.included.map Reference.link := List.map_subset _ (List.filter_subset_self _)
  have hnames : (s.removeDead isDead).fieldNames.map (·.owner.link) ⊆
      s.fieldNames.map (·.owner.link) := List.map_subset _ (List.filter_subset_self _)
  have hrest := List.append_subset.mpr ⟨List.subset_append_of_subset_left _ hincluded,
    List.subset_append_of_subset_right (s.included.map Reference.link) hnames⟩
  exact List.append_subset.mpr ⟨List.subset_append_left _ _,
    List.subset_append_of_subset_right _ (List.cons_subset_cons _ hrest)⟩

theorem onlyRemoves_presets {ps : List Preset} {r : Registry} (h : Preset.registry ps = .ok r) :
    r.OnlyRemoves := by
  intro clean hc isDead x y hy
  rcases Preset.mem_cleaners h hc with rfl | rfl
  · cases x with
    | diagram d =>
      simp only [Preset.cleanDiagram] at hy
      split at hy
      · cases hy
      · cases hy
        exact d.links_removeViews _
    | _ => cases hy
  · cases x with
    | schema s =>
      simp only [Preset.cleanSchema] at hy
      split at hy
      · cases hy
        exact s.links_removeDead isDead
      · cases hy
    | _ => cases hy

namespace Graph

/-- A body whose references, where they are bound, are bound to elements of the graph. -/
def Anchors (g : Graph) (b : Body) : Prop :=
  ∀ l ∈ b.links, ∀ t, l.target = some t → ∃ x, g.element? t = some x

def Anchored (g : Graph) : Prop := ∀ h e, g.element? h = some e → g.Anchors e.body

end Graph

/-- The bodies that a change brings in are bound to elements of the graph. -/
def Change.BringsAnchored (g : Graph) : Change → Prop
  | .create _ body => g.Anchors body
  | .add e _ => g.Anchors e.body
  | .edit f h => ∀ b, g.body? h = some b → g.Anchors b → g.Anchors (f b)
  | _ => True

namespace Graph

variable {g g' : Graph} {b b' : Body}

def StaysAnchored (g : Graph) (e e' : Element) : Prop := g.Anchors e.body → g.Anchors e'.body

theorem lasting_staysAnchored (g : Graph) : Lasting g.StaysAnchored :=
  ⟨fun _ => id, fun h h' => h' ∘ h⟩

theorem anchors_congr (h : b'.links = b.links) : g.Anchors b' ↔ g.Anchors b := by
  rw [Anchors, Anchors, h]

theorem Anchors.subset (a : g.Anchors b) (h : b'.links ⊆ b.links) : g.Anchors b' :=
  fun l hl => a l (h hl)

theorem Anchors.rebind {f : Rebinding} (a : g.Anchors b)
    (hf : ∀ l t, (f.onLink l).target = some t → l.target = some t ∨ ∃ x, g.element? t = some x) :
    g.Anchors (b.rebind f) := by
  intro l' hl' t ht
  rw [Body.links_rebind] at hl'
  obtain ⟨l, hl, rfl⟩ := List.mem_map.mp hl'
  exact (hf l t ht).elim (a l hl t) id

theorem Anchors.follow (a : g.Anchors b) (moves : Moves) : g.Anchors (b.rebind moves.follow) := by
  refine a.rebind fun l t ht => .inl ?_
  unfold Rebinding.onLink Moves.follow at ht
  split at ht <;> exact ht

theorem Anchors.bind (a : g.Anchors b) : g.Anchors (b.rebind g.bind) := by
  refine a.rebind fun l t ht => ?_
  rw [onLink_bind] at ht
  split at ht
  next h hr =>
    obtain rfl := Option.some.inj ht
    unfold resolve at hr
    split at hr
    · cases hr
    · split at hr
      · cases hr
      next x hx =>
        split at hr
        · exact .inr ⟨x, Except.ok.inj hr ▸ hx⟩
        · cases hr
  · exact .inl ht

theorem anchors_of_unbound (hb : ∀ l ∈ b.links, l.target = none) : g.Anchors b := by
  intro l hl t ht
  rw [hb l hl] at ht
  cases ht

theorem anchors_unbound (b : Body) : g.Anchors (unbound b) := by
  refine anchors_of_unbound fun l' hl' => ?_
  rw [unbound, Body.links_rebind] at hl'
  obtain ⟨l, -, rfl⟩ := List.mem_map.mp hl'
  rfl

theorem anchors_of_unwire (hu : b'.unwire = b.unwire) : g.Anchors b' ↔ g.Anchors b :=
  anchors_congr (by rw [← Body.links_unwire b', hu, Body.links_unwire])

theorem evolves_wire (g₀ g : Graph) (h : Handle) : Evolves g₀.StaysAnchored g (g.wire h).1 :=
  (lasting_staysAnchored g₀).evolves_update fun e _ =>
    (anchors_of_unwire (unwire_wireBody g h e.body)).mpr

theorem staysAnchored_cleaned (hr : g.registry.OnlyRemoves) (isDead : Handle → Bool)
    {clean : Cleaner} (hc : clean ∈ g.registry.cleaners) (e : Element) :
    g.StaysAnchored e (cleaned isDead clean e) := by
  intro a
  unfold cleaned
  split
  next x hx =>
    split
    next y hy =>
      rw [hx] at a
      have hlinks : (Body.extension y).links ⊆ (Body.extension x).links := hr clean hc isDead x y hy
      exact a.subset hlinks
    · exact a
  · exact a

theorem Evolves.exists_element? {R : Element → Element → Prop} (v : Evolves R g g') {t : Handle}
    (ht : ∃ x, g.element? t = some x) : ∃ x, g'.element? t = some x := by
  have hrel := v t
  obtain ⟨x, hx⟩ := ht
  rw [hx] at hrel
  generalize g'.element? t = y at hrel ⊢
  cases hrel with
  | some _ => exact ⟨_, rfl⟩

theorem Evolves.anchored (v : Evolves g.StaysAnchored g g') (a : g.Anchored) : g'.Anchored := by
  intro h e' he' l hl t ht
  obtain ⟨e, he, hstays⟩ := v.element? he'
  exact v.exists_element? (hstays (a h e he) l hl t ht)

theorem Pushes.exists_element? {sort : Element → Prop} (p : Pushes sort g g') {t : Handle}
    (ht : ∃ x, g.element? t = some x) : ∃ x, g'.element? t = some x := by
  obtain ⟨x, hx⟩ := ht
  exact ⟨_, Array.getElem?_eq_getElem (Nat.lt_of_lt_of_le (slot_lt_of_element? hx) p.size_le)⟩

theorem Pushes.anchored (p : Pushes (fun e => g.Anchors e.body) g g') (a : g.Anchored) :
    g'.Anchored := by
  have hold := p.forall_elements (P := fun _ e => g.Anchors e.body) (fun _ _ _ _ _ he => he)
    (fun _ e f => (anchors_congr (e.body.links_mapChildren f)).mpr) a
  exact fun h e he l hl t ht => p.exists_element? (hold h e he l hl t ht)

theorem Anchored.change (a : g.Anchored) (hr : g.registry.OnlyRemoves) {c : Change}
    (hc : c.BringsAnchored g) : (c.run g).Anchored := by
  have l := lasting_staysAnchored g
  have hpackage (name : String) : g.Anchors (Element.new name (.package [])).body :=
    anchors_of_unbound (List.forall_mem_nil _)
  cases c with
  | create path body => exact (pushes_create hpackage path (fun _ => hc) g).anchored a
  | add e owner => exact (pushes_addStep hc owner g).anchored a
  | ensure path => exact (pushes_ensurePackage hpackage g path).anchored a
  | delete h =>
    exact (l.evolves_delete (fun _ => id)
      (fun e f => (anchors_congr (e.body.links_mapChildren f)).mpr) h g).anchored a
  | rename h name =>
    exact (l.evolves_rename (fun _ _ _ => id) (fun _ _ => id)
      (fun _ moves he => he.follow moves) h name g).anchored a
  | resolve => exact (l.evolves_updateLive (fun _ he => he.bind) g).anchored a
  | sweep =>
    refine (l.evolves_sweep (fun isDead e he => ?_) g
      fun isDead _ hclean e => staysAnchored_cleaned hr isDead hclean e).anchored a
    rw [e.fst_prune]
    exact he.subset (Body.links_prune isDead e.body)
  | freeze => exact (evolves_map (f := Element.freeze) (fun _ => id) rfl).anchored a
  | edit f h =>
    refine (l.evolves_update fun e he => ?_).anchored a
    exact hc e.body (by rw [body?, he, Option.map_some])

theorem Anchored.of_keeps {α : Type} {π : Element → α} (a : g.Anchored) (k : Keeps π g g')
    (f : α → Body) (hf : f ∘ π = Element.body) : g'.Anchored := by
  have v : Evolves (fun e e' => e'.body = e.body) g g' :=
    evolves_of_map_eq (π := Element.body) (hf ▸ (k.map f).element)
  exact (v.imp fun he ha => he ▸ ha).anchored a

theorem Anchored.use (a : g.Anchored) (hr : g.registry.OnlyRemoves) {u : Use}
    (hu : ∀ c, u = .change c → c.BringsAnchored g) : (u.run g).Anchored := by
  have l := lasting_staysAnchored g
  have hhash (h : Handle) : (g.hashElement h).1.Anchored :=
    a.of_keeps (keeps_hashElement h g) Element.body rfl
  cases u with
  | change c => exact a.change hr (hu c rfl)
  | wire h =>
    exact Evolves.anchored (evolves_wire g g h) a
  | dispose =>
    refine (evolves_map (fun e _ => ?_) rfl).anchored a
    exact (anchors_of_unwire (unbound e.body).unwire_unwire).mpr (anchors_unbound e.body)
  | hash h => exact hhash h
  | hashPath p =>
    rw [Use.run, Graph.hash]
    split
    · exact a
    · exact hhash _
  | hashIndex => exact a.of_keeps (hashIndex_eq_gather g).1 (·.1.body) rfl

/-- The graphs that come from new or built ones by all that is open to the users of a graph, where a
body keeps its kind and none is brought in that is not anchored. -/
inductive Kept (r : Registry) : Graph → Prop
  | new : Kept r (new r)
  | build {freeze : Bool} {model : Model} {g : Graph} : build r freeze model = .ok g → Kept r g
  | use {g : Graph} {u : Use} : Kept r g →
      (∀ c, u = .change c → c.Allowed g ∧ c.KeepsKind g ∧ c.BringsAnchored g) → Kept r (u.run g)
  | wireAll {g : Graph} : Kept r g → Kept r g.wireAll.1
  | disposeAt {g : Graph} (h : Handle) : Kept r g → Kept r (g.update Element.dispose h)

theorem Kept.change {r : Registry} (k : Kept r g) {c : Change} (ha : c.Allowed g)
    (hk : c.KeepsKind g) (hb : c.BringsAnchored g) : Kept r (c.run g) := by
  refine k.use (u := .change c) fun c' hc' => ?_
  cases hc'
  exact ⟨ha, hk, hb⟩

theorem Kept.create {r : Registry} (k : Kept r g) (path : Path) (hc : b.children = [])
    (hu : ∀ l ∈ b.links, l.target = none) : Kept r ((Change.create path b).run g) :=
  k.change hc trivial (anchors_of_unbound hu)

theorem anchored_new (r : Registry) : (new r).Anchored := by
  have hprimitive (name : String) :
      Anchors { registry := r } (Element.new name .primitiveType).freeze.body :=
    anchors_of_unbound (List.forall_mem_nil _)
  refine (pushes_new hprimitive r).anchored fun h e he => ?_
  cases he

theorem anchored_of_build {r : Registry} {freeze : Bool} {model : Model}
    (hb : build r freeze model = .ok g) : g.Anchored := by
  intro h e he l hl t ht
  obtain ⟨entries, contents, g₁, p⟩ := prepared_of_build hb
  have f := p.finished hb
  obtain ⟨t', x, ht', hx, -⟩ := f.binds ⟨he, f.allAlive h e he⟩ hl
  exact ⟨x, Option.some.inj (ht'.symm.trans ht) ▸ hx.1⟩

namespace Kept

variable {r : Registry}

theorem wellFormed_and_registry (k : Kept r g) : g.WellFormed ∧ g.registry = r := by
  induction k with
  | new => exact Lived.new.wellFormed_and_registry
  | build hb =>
    obtain ⟨entries, contents, g₁, p⟩ := prepared_of_build hb
    have f := p.finished hb
    exact ⟨f.wellFormed, f.registry_eq.trans p.registry_eq⟩
  | @use g u _ hu ih =>
    obtain ⟨w, hr⟩ := ih
    by_cases hc : ∃ c, u = .change c
    · obtain ⟨c, rfl⟩ := hc
      exact ⟨w.run (hu c rfl).1, (registry_run w (hu c rfl).1).trans hr⟩
    · have hk := keeps_use g (not_exists.mp hc)
      exact ⟨hk.place.wellFormed w, hk.registry.trans hr⟩
  | @wireAll g _ ih =>
    have hk := (keeps_wireAll g).post
    exact ⟨hk.place.wellFormed ih.1, hk.registry.trans ih.2⟩
  | @disposeAt g h _ ih =>
    have hk : Keeps Element.place g (g.update Element.dispose h) := Keeps.update fun _ _ => rfl
    exact ⟨hk.wellFormed ih.1, ih.2⟩

theorem wellFormed (k : Kept r g) : g.WellFormed := k.wellFormed_and_registry.1

theorem registry_eq (k : Kept r g) : g.registry = r := k.wellFormed_and_registry.2

theorem rostered (hr : r.KeepsKinds) (k : Kept r g) : g.Rostered := by
  induction k with
  | new => exact rostered_new r
  | build hb =>
    obtain ⟨entries, contents, g₁, p⟩ := prepared_of_build hb
    exact (p.finished hb).rostered
  | @use g u k hu ih =>
    by_cases hc : ∃ c, u = .change c
    · obtain ⟨c, rfl⟩ := hc
      obtain ⟨ha, hk, -⟩ := hu c rfl
      exact ih.run k.wellFormed (k.registry_eq.symm ▸ hr) ha hk
    · exact (keeps_use g (not_exists.mp hc)).rostered ih
  | @wireAll g _ ih => exact (keeps_wireAll g).post.rostered ih
  | @disposeAt g h _ ih =>
    have hk : Keeps Element.post g (g.update Element.dispose h) := Keeps.update fun _ _ => rfl
    exact hk.rostered ih

theorem anchored (hr : r.OnlyRemoves) (k : Kept r g) : g.Anchored := by
  induction k with
  | new => exact anchored_new r
  | build hb => exact anchored_of_build hb
  | use k hu ih => exact ih.use (k.registry_eq.symm ▸ hr) fun c hc => (hu c hc).2.2
  | @wireAll g _ ih =>
    exact Evolves.anchored ((lasting_staysAnchored g).evolves_foldl id
      (fun g' h _ => evolves_wire g g' h) g) ih
  | @disposeAt g h _ ih =>
    exact Evolves.anchored ((lasting_staysAnchored g).evolves_update fun _ _ => id) ih

end Kept

end Graph
end ModelGraph
