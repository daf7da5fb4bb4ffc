import ModelGraph.Proofs.FrozenGraphs
import ModelGraph.Proofs.MappingHandles
import ModelGraph.Proofs.SlotVisits
import ModelGraph.Proofs.WiredMappings

namespace ModelGraph

namespace Mapping

def included (m : Mapping) : List Handle := m.includes.filterMap Reference.target

/-- A mapping that was read, whatever is bound or wired in it and whichever class mappings it has
lost from the top since. -/
def Converted (m : Mapping) : Prop :=
  ∃ r path j read, Entry.mapping r path j = .ok read ∧
    m.slots.map SetImplementation.slots = read.slots.map SetImplementation.slots ∧
      m.top.Sublist read.top

/-- The mappings that the operations on mappings make: next to those that are converted, the top
takes new slots only, and no slot is given up. -/
inductive Made : Mapping → Prop
  | empty : Made {}
  | converted {m : Mapping} : m.Converted → Made m
  | addSlot {m : Mapping} (s : SetImplementation) : Made m → Made (m.addSlot s)
  | addTop {m : Mapping} (s : SetImplementation) : Made m → Made (m.addTop s)
  | changed {m m' : Mapping} : Made m → m'.slots.length = m.slots.length →
      m'.top.Sublist m.top → Made m'

variable {m : Mapping}

theorem converted_of_unwire {r : Registry} {path : Path} {j : Json} {read : Mapping}
    (hread : Entry.mapping r path j = .ok read) {f : Rebinding}
    (h : m.unwire = (read.rebind f).unwire) : m.Converted := by
  refine ⟨r, path, j, read, hread, ?_, ?_⟩
  · rw [← m.slots_map_unwire, h, slots_map_unwire, rebind, List.map_map]
    exact List.map_congr_left fun s _ => SetImplementation.slots_rebind f s
  · change m.unwire.top.Sublist read.top
    rw [h]
    exact List.Sublist.refl _

theorem Converted.top (hm : m.Converted) : m.top.Nodup ∧ ∀ i ∈ m.top, i < m.slots.length := by
  obtain ⟨r, path, j, read, hread, hslots, htop⟩ := hm
  have hforest := isForest_of_read hread
  have hlength : m.slots.length = read.slots.length := by simpa using congrArg List.length hslots
  exact ⟨hforest.nodup_top.sublist htop, fun i hi => hlength ▸ hforest.top_lt i (htop.subset hi)⟩

theorem Made.top (hm : m.Made) : m.top.Nodup ∧ ∀ i ∈ m.top, i < m.slots.length := by
  induction hm with
  | empty => exact ⟨.nil, fun i hi => absurd hi List.not_mem_nil⟩
  | converted hc => exact hc.top
  | addSlot s _ ih =>
    refine ⟨ih.1, fun i hi => Nat.lt_of_lt_of_le (ih.2 i hi) ?_⟩
    simp [Mapping.addSlot]
  | @addTop m s _ ih =>
    have hnew : m.slots.length ∉ m.top := fun hi => Nat.lt_irrefl _ (ih.2 _ hi)
    have hlength : (m.addTop s).slots.length = m.slots.length + 1 := by
      simp [Mapping.addTop, Mapping.addSlot]
    refine ⟨ih.1.append (List.nodup_singleton _) (by simpa using hnew), fun i hi => ?_⟩
    rw [hlength, Nat.lt_succ_iff]
    rcases List.mem_append.mp hi with hi | hi
    · exact Nat.le_of_lt (ih.2 i hi)
    · exact Nat.le_of_eq (List.mem_singleton.mp hi)
  | changed _ hl ht ih => exact ⟨ih.1.sublist ht, fun i hi => hl ▸ ih.2 i (ht.subset hi)⟩

end Mapping

theorem Family.exists_mapping {b : Body} (ha : Family.mapping.admits b = true) :
    ∃ m, b = .mapping m := by
  cases b with
  | mapping m => exact ⟨m, rfl⟩
  | _ => cases ha

namespace Graph

variable {g g' : Graph} {b b' : Body} {h k : Handle}

theorem mapping?_of_element? {e : Element} (he : g.element? k = some e) :
    g.mapping? k = e.body.mapping? := by
  rw [mapping?_eq, body?, he]
  rfl

theorem exists_element?_of_mapping? {n : Mapping} (hk : g.mapping? k = some n) :
    ∃ e, g.element? k = some e ∧ e.body.mapping? = some n := by
  cases he : g.element? k with
  | none =>
    rw [mapping?, body?, he] at hk
    cases hk
  | some e => exact ⟨e, rfl, (mapping?_of_element? he).symm.trans hk⟩

theorem slot_lt_of_mapping? {n : Mapping} (hk : g.mapping? k = some n) :
    k.slot < g.elements.size := by
  obtain ⟨e, he, -⟩ := exists_element?_of_mapping? hk
  exact slot_lt_of_element? he

theorem includes_eq (g : Graph) (h : Handle) :
    g.includes h = ((g.mapping? h).map Mapping.included).getD [] := by
  rw [includes]
  cases g.mapping? h <;> rfl

/-- A body that may stand in the graph: if it is a mapping, then operations on mappings have made
it, and it includes mappings of the graph. -/
def Suits (g : Graph) (b : Body) : Prop :=
  ∀ m, b.mapping? = some m → m.Made ∧ ∀ k ∈ m.included, ∃ n, g.mapping? k = some n

def SuitsAll (g : Graph) : Prop := ∀ h e, g.element? h = some e → g.Suits e.body

theorem SuitsAll.mapping (s : g.SuitsAll) {m : Mapping} (hm : g.mapping? h = some m) :
    m.Made ∧ ∀ k ∈ m.included, ∃ n, g.mapping? k = some n := by
  obtain ⟨e, he, hm⟩ := exists_element?_of_mapping? hm
  exact s h e he m hm

theorem suits_of_unbound {m : Mapping} (hm : m.Made) (hi : m.included = []) :
    g.Suits (.mapping m) := by
  rintro _ ⟨⟩
  refine ⟨hm, fun k hk => ?_⟩
  rw [hi] at hk
  cases hk

theorem suits_of_mapping?_eq_none (hb : b.mapping? = none) : g.Suits b := by
  intro m hm
  rw [hb] at hm
  cases hm

end Graph

/-- The bodies that a change brings in suit the graph, and no mapping is made into anything else. -/
def Change.BringsSuited (g : Graph) : Change → Prop
  | .create _ body => g.Suits body
  | .add e _ => g.Suits e.body
  | .edit f h => ∀ b, g.body? h = some b →
    g.Suits (f b) ∧ (b.mapping?.isSome = true → (f b).mapping?.isSome = true)
  | _ => True

namespace Graph

variable {g g' : Graph} {b b' : Body} {h k : Handle}

def StaysSuited (g : Graph) (b b' : Body) : Prop :=
  (b.mapping?.isSome = true → b'.mapping?.isSome = true) ∧ (g.Suits b → g.Suits b')

theorem StaysSuited.trans {b'' : Body} (s : g.StaysSuited b b') (s' : g.StaysSuited b' b'') :
    g.StaysSuited b b'' := ⟨s'.1 ∘ s.1, s'.2 ∘ s.2⟩

theorem lasting_staysSuited (g : Graph) : Lasting fun e e' => g.StaysSuited e.body e'.body :=
  ⟨fun _ => ⟨id, id⟩, StaysSuited.trans⟩

theorem staysSuited_of_eq (hm : b'.mapping? = b.mapping?) : g.StaysSuited b b' := by
  rw [StaysSuited, Suits, Suits, hm]
  exact ⟨id, id⟩

theorem staysSuited_map {f : Mapping → Mapping} (hb : b'.mapping? = b.mapping?.map f)
    (hf : ∀ m, (f m).slots.length = m.slots.length ∧ (f m).top.Sublist m.top)
    (hk : ∀ m, ∀ k ∈ (f m).included, k ∈ m.included ∨ ∃ n, g.mapping? k = some n) :
    g.StaysSuited b b' := by
  constructor
  · rw [hb, Option.isSome_map]
    exact id
  · intro hs m' hm'
    rw [hb, Option.map_eq_some_iff] at hm'
    obtain ⟨m, hm, rfl⟩ := hm'
    obtain ⟨hmade, hincluded⟩ := hs m hm
    refine ⟨hmade.changed (hf m).1 (hf m).2, fun k hmem => ?_⟩
    exact (hk m k hmem).elim (hincluded k) id

theorem staysSuited_rebind {f : Rebinding} (hf : ∀ (r : Reference .mapping) k,
    (f _ r).target = some k → r.target = some k ∨ ∃ n, g.mapping? k = some n) (b : Body) :
    g.StaysSuited b (b.rebind f) := by
  refine staysSuited_map (b.mapping?_rebind f) (fun m => ⟨List.length_map _, .refl _⟩) ?_
  intro m k hk
  obtain ⟨r', hr', ht⟩ := List.mem_filterMap.mp hk
  obtain ⟨r, hr, rfl⟩ := List.mem_map.mp hr'
  exact (hf r k ht).imp_left fun ht => List.mem_filterMap.mpr ⟨r, hr, ht⟩

theorem staysSuited_follow (moves : Moves) (b : Body) :
    g.StaysSuited b (b.rebind moves.follow) := by
  refine staysSuited_rebind (fun r k hk => .inl ?_) b
  rw [Moves.follow] at hk
  split at hk <;> exact hk

theorem exists_mapping?_of_resolve {r : Reference .mapping} (hr : g.resolve r.link = .ok k) :
    ∃ n, g.mapping? k = some n := by
  unfold resolve at hr
  split at hr
  · cases hr
  · split at hr
    · cases hr
    next e he =>
      split at hr
      next ha =>
        obtain rfl := Except.ok.inj hr
        obtain ⟨m, hm⟩ := Family.exists_mapping ha
        exact ⟨m, by rw [mapping?_of_element? he, hm, Body.mapping?]⟩
      · cases hr

theorem staysSuited_bind (b : Body) : g.StaysSuited b (b.rebind g.bind) := by
  refine staysSuited_rebind (fun r k hk => ?_) b
  rw [bind] at hk
  split at hk
  next t hr =>
    obtain rfl := Option.some.inj hk
    exact .inr (exists_mapping?_of_resolve hr)
  · exact .inl hk

theorem staysSuited_prune (isDead : Handle → Bool) (b : Body) :
    g.StaysSuited b (b.prune isDead) := by
  refine staysSuited_map (b.mapping?_prune isDead) (fun m => ⟨rfl, List.filter_sublist⟩) ?_
  intro m k hk
  obtain ⟨r, hr, ht⟩ := List.mem_filterMap.mp hk
  exact .inl (List.mem_filterMap.mpr ⟨r, (List.mem_filter.mp hr).1, ht⟩)

theorem suits_unwire : g.Suits b.unwire ↔ g.Suits b := by
  constructor
  · intro hs m hm
    obtain ⟨hmade, hincluded⟩ := hs m.unwire (by rw [b.mapping?_unwire, hm, Option.map_some])
    exact ⟨hmade.changed (List.length_map _).symm (.refl _), hincluded⟩
  · exact (staysSuited_map b.mapping?_unwire (fun m => ⟨List.length_map _, .refl _⟩)
      fun m k hk => .inl hk).2

theorem staysSuited_of_unwire (hu : b'.unwire = b.unwire) : g.StaysSuited b b' := by
  have hmapping : b'.mapping?.isSome = b.mapping?.isSome := by
    rw [← Option.isSome_map (f := Mapping.unwire), ← b'.mapping?_unwire, hu, b.mapping?_unwire,
      Option.isSome_map]
  rw [StaysSuited, hmapping, ← suits_unwire (b := b'), hu, suits_unwire]
  exact ⟨id, id⟩

theorem Evolves.exists_mapping? (v : Evolves (fun e e' => g.StaysSuited e.body e'.body) g g')
    (hk : ∃ n, g.mapping? k = some n) : ∃ n, g'.mapping? k = some n := by
  rw [← Option.isSome_iff_exists] at hk ⊢
  have hrel := v k
  rw [mapping?_eq, body?] at hk ⊢
  generalize g.element? k = x, g'.element? k = y at hrel hk ⊢
  cases hrel with
  | none => exact hk
  | some hr => exact hr.1 hk

theorem Evolves.suitsAll (v : Evolves (fun e e' => g.StaysSuited e.body e'.body) g g')
    (s : g.SuitsAll) : g'.SuitsAll := by
  intro h e' he' m hm
  obtain ⟨e, he, hstays⟩ := v.element? he'
  obtain ⟨hmade, hincluded⟩ := hstays.2 (s h e he) m hm
  exact ⟨hmade, fun k hk => v.exists_mapping? (hincluded k hk)⟩

theorem Pushes.suitsAll (a : Pushes (fun e => g.Suits e.body) g g') (s : g.SuitsAll) :
    g'.SuitsAll := by
  have hsuits := a.forall_elements (P := fun _ e => g.Suits e.body) (fun _ _ _ _ _ he => he)
    (fun _ e f he => (staysSuited_of_eq (e.body.mapping?_mapChildren f)).2 he) s
  -- mappings are where they were
  have hkept := a.forall_elements (P := fun k e => ∀ n, g.mapping? k = some n →
      ∃ n, e.body.mapping? = some n) ?_ ?_ ?_
  · intro h e he m hm
    obtain ⟨hmade, hincluded⟩ := hsuits h e he m hm
    refine ⟨hmade, fun k hk => ?_⟩
    obtain ⟨n, hn⟩ := hincluded k hk
    have hlt := Nat.lt_of_lt_of_le (slot_lt_of_mapping? hn) a.size_le
    have hk' : g'.element? k = some g'.elements[k.slot] := Array.getElem?_eq_getElem hlt
    rw [mapping?_of_element? hk']
    exact hkept k _ hk' n hn
  · intro k e owner path hnew _ n hn
    exact absurd (slot_lt_of_mapping? hn) (Nat.not_lt_of_le hnew)
  · intro k e f he n hn
    rw [Body.mapping?_mapChildren]
    exact he n hn
  · intro k e he n hn
    exact ⟨n, (mapping?_of_element? he).symm.trans hn⟩

theorem SuitsAll.change (s : g.SuitsAll) {c : Change} (hc : c.BringsSuited g) :
    (c.run g).SuitsAll := by
  have l := lasting_staysSuited g
  have hpackage (name : String) : g.Suits (Element.new name (.package [])).body :=
    suits_of_mapping?_eq_none rfl
  cases c with
  | create path body =>
    exact (pushes_create hpackage path (fun _ => hc) g).suitsAll s
  | add e owner => exact (pushes_addStep hc owner g).suitsAll s
  | ensure path => exact (pushes_ensurePackage hpackage g path).suitsAll s
  | delete h =>
    refine (l.evolves_delete (fun _ => staysSuited_of_eq rfl) (fun e f => ?_) h g).suitsAll s
    exact staysSuited_of_eq (e.body.mapping?_mapChildren f)
  | rename h name =>
    refine (l.evolves_rename (fun _ _ _ => staysSuited_of_eq rfl) (fun _ _ => staysSuited_of_eq rfl)
      (fun e moves => ?_) h name g).suitsAll s
    exact staysSuited_follow moves e.body
  | resolve => exact (l.evolves_updateLive (fun e => staysSuited_bind e.body) g).suitsAll s
  | sweep =>
    refine (l.evolves_sweep (fun isDead e => ?_) g (fun isDead clean _ e => ?_)).suitsAll s
    · rw [e.fst_prune]
      exact staysSuited_prune isDead e.body
    · exact staysSuited_of_eq (mapping?_cleaned isDead clean e)
  | freeze =>
    exact (evolves_map (f := Element.freeze) (fun _ => staysSuited_of_eq rfl) rfl).suitsAll s
  | edit f h =>
    refine (l.evolves_update fun e he => ?_).suitsAll s
    have hb : g.body? h = some e.body := by rw [body?, he, Option.map_some]
    exact ⟨(hc e.body hb).2, fun _ => (hc e.body hb).1⟩

theorem suitsAll_new (r : Registry) : (new r).SuitsAll := by
  have hprimitive (name : String) :
      Suits { registry := r } (Element.new name .primitiveType).freeze.body :=
    suits_of_mapping?_eq_none rfl
  refine (pushes_new hprimitive r).suitsAll fun h e he => ?_
  cases he

theorem Finished.allAlive {contents : List (Path × Body)} {g₁ : Graph}
    (f : Finished contents g₁ g) : g.AllAlive := by
  intro h e he
  obtain ⟨e₁, he₁, hplace⟩ := f.keeps_place.symm.element? he
  exact (congrArg ElementPlace.deleted hplace).symm.trans (f.stocked.allAlive h e₁ he₁)

theorem converted_of_build {r : Registry} {freeze : Bool} {model : Model}
    (hb : build r freeze model = .ok g) {e : Element} (hl : g.LiveAt h e) {m : Mapping}
    (hm : e.body = .mapping m) : m.Converted := by
  obtain ⟨entries, contents, g₁, p⟩ := prepared_of_build hb
  have f := p.finished hb
  obtain ⟨e₁, hl₁, -⟩ := f.gained hl
  have hu := f.unwire_body_eq hl hl₁
  rw [hm] at hu
  cases hb₁ : e₁.body with
  | mapping m₁ =>
    rw [hb₁] at hu
    obtain ⟨path, j, hread⟩ := p.exists_read hl₁ hb₁
    exact Mapping.converted_of_unwire hread (Body.mapping.inj hu)
  | _ =>
    rw [hb₁] at hu
    cases hu

theorem suitsAll_of_build {r : Registry} {freeze : Bool} {model : Model}
    (hb : build r freeze model = .ok g) : g.SuitsAll := by
  intro h e he m hm
  obtain ⟨entries, contents, g₁, p⟩ := prepared_of_build hb
  have hl : g.LiveAt h e := ⟨he, (p.finished hb).allAlive h e he⟩
  have hbody := Body.eq_mapping hm
  refine ⟨.converted (converted_of_build hb hl hbody), fun k hk => ?_⟩
  obtain ⟨i, hi, ht⟩ := List.mem_filterMap.mp hk
  have hholds : e.body.Holds i.link := hbody ▸ .mapping (.included hi)
  obtain ⟨t, x, hlt, hx, -, ha⟩ := (p.finished hb).binds hl hholds.mem_links
  obtain rfl := Option.some.inj (hlt.symm.trans ht)
  obtain ⟨n, hn⟩ := Family.exists_mapping ha
  exact ⟨n, mapping?_of_live hx hn⟩

theorem SuitsAll.of_keeps {α : Type} {π : Element → α} (s : g.SuitsAll) (k : Keeps π g g')
    (f : α → Body) (hf : f ∘ π = Element.body) : g'.SuitsAll := by
  have v : Evolves (fun e e' => e'.body = e.body) g g' :=
    evolves_of_map_eq (π := Element.body) (hf ▸ (k.map f).element)
  exact (v.imp fun he => staysSuited_of_eq (congrArg Body.mapping? he)).suitsAll s

theorem SuitsAll.use (s : g.SuitsAll) {u : Use} (hu : ∀ c, u = .change c → c.BringsSuited g) :
    (u.run g).SuitsAll := by
  have l := lasting_staysSuited g
  have hhash (h : Handle) : (g.hashElement h).1.SuitsAll :=
    s.of_keeps (keeps_hashElement h g) Element.body rfl
  cases u with
  | change c => exact s.change (hu c rfl)
  | wire h =>
    exact (l.evolves_update fun e _ =>
      staysSuited_of_unwire (unwire_wireBody g h e.body)).suitsAll s
  | dispose =>
    refine (evolves_map (fun e => ?_) rfl).suitsAll s
    have hunbound : g.StaysSuited e.body (unbound e.body) :=
      staysSuited_rebind (fun _ _ ht => absurd ht (by simp [Reference.unbind])) e.body
    exact hunbound.trans (staysSuited_of_unwire (unbound e.body).unwire_unwire)
  | hash h => exact hhash h
  | hashPath p =>
    rw [Use.run, Graph.hash]
    split
    · exact s
    · exact hhash _
  | hashIndex => exact s.of_keeps (hashIndex_eq_gather g).1 (·.1.body) rfl

/-- The graphs that come from new or built ones by all that is open to the users of a graph, where
no body is brought in that does not suit. -/
inductive Typed : Graph → Prop
  | new (r : Registry) : Typed (new r)
  | build {r : Registry} {freeze : Bool} {model : Model} {g : Graph} :
      build r freeze model = .ok g → Typed g
  | use {g : Graph} {u : Use} :
      Typed g → (∀ c, u = .change c → c.BringsSuited g) → Typed (u.run g)
  | wireAll {g : Graph} : Typed g → Typed g.wireAll.1
  | disposeAt {g : Graph} (h : Handle) : Typed g → Typed (g.update Element.dispose h)

theorem Typed.change (a : g.Typed) {c : Change} (hc : c.BringsSuited g) : (c.run g).Typed := by
  refine a.use (u := .change c) fun c' hc' => ?_
  cases hc'
  exact hc

theorem Typed.suitsAll (a : g.Typed) : g.SuitsAll := by
  induction a with
  | new r => exact suitsAll_new r
  | build hb => exact suitsAll_of_build hb
  | use _ hu ih => exact ih.use hu
  | @wireAll g _ ih =>
    have l := lasting_staysSuited g
    refine Evolves.suitsAll (l.evolves_foldl id (fun g h _ => ?_) g) ih
    exact l.evolves_update fun e _ => staysSuited_of_unwire (unwire_wireBody g h e.body)
  | @disposeAt g h _ ih =>
    exact Evolves.suitsAll ((lasting_staysSuited g).evolves_update
      (fun e _ => staysSuited_of_eq rfl)) ih

end Graph
end ModelGraph
