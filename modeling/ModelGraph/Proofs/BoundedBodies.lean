import ModelGraph.Proofs.FittingSlots
import ModelGraph.Proofs.BuiltGraphs

namespace ModelGraph

open Record Json

theorem Multiplicity.isBounded_of_read {j : Json} {m : Multiplicity} (h : ofJson? j = some m) :
    m.IsBounded := by
  simp only [ofJson?, bind_eq_some, pure_eq_some, required_eq] at h
  obtain ⟨r, -, lower, hl, upper, -, rfl⟩ := h
  obtain ⟨i, -, hl⟩ := Option.bind_eq_some_iff.mp hl
  exact Nat.lt_trans (lt_of_nat32? hl) (by decide)

theorem Multiplicity.isBounded_of_required {o : Option Json} {m : Multiplicity}
    (h : o.bind ofJson? = some m) : m.IsBounded := by
  obtain ⟨i, -, hi⟩ := Option.bind_eq_some_iff.mp h
  exact isBounded_of_read hi

theorem Property.isBounded_of_read {j : Json} {p : Property} (h : ofJson? j = some p) :
    p.multiplicity.IsBounded := by
  simp only [ofJson?, bind_eq_some, pure_eq_some, required_eq] at h
  obtain ⟨r, -, name, -, type, -, multiplicity, hm, annotations, -, rfl⟩ := h
  exact Multiplicity.isBounded_of_required hm

theorem DerivedProperty.isBounded_of_read {j : Json} {p : DerivedProperty}
    (h : ofJson? j = some p) : p.returnMultiplicity.IsBounded := by
  simp only [ofJson?, bind_eq_some, pure_eq_some, required_eq] at h
  obtain ⟨r, -, name, -, type, -, multiplicity, hm, annotations, -, rfl⟩ := h
  exact Multiplicity.isBounded_of_required hm

theorem Parameter.isBounded_of_read {j : Json} {p : Parameter} (h : ofJson? j = some p) :
    p.multiplicity.IsBounded := by
  simp only [ofJson?, bind_eq_some, pure_eq_some, required_eq] at h
  obtain ⟨r, -, kind, -, name, -, type, -, multiplicity, hm, rfl⟩ := h
  exact Multiplicity.isBounded_of_required hm

theorem Record.forall_mem_of_list {α : Type} {read : Json → Option α} {P : α → Prop}
    {o : Option Json} {as : List α} (h : readDefault [] (list? read) o = some as)
    (hP : ∀ {j a}, read j = some a → P a) : ∀ a ∈ as, P a := by
  intro a ha
  obtain ⟨j, hj⟩ := mem_of_list h a ha
  exact hP hj

theorem Class.isBounded_of_read {j : Json} {c : Class} (h : ofJson? j = some c) :
    ∀ m ∈ c.multiplicities, m.IsBounded := by
  simp only [ofJson?, bind_eq_some, pure_eq_some, list_eq] at h
  obtain ⟨r, -, superTypes, -, properties, hp, derived, hd, constraints, -, annotations, -, rfl⟩ := h
  rw [multiplicities, List.forall_mem_append, List.forall_mem_map, List.forall_mem_map]
  exact ⟨forall_mem_of_list hp Property.isBounded_of_read,
    forall_mem_of_list hd DerivedProperty.isBounded_of_read⟩

theorem Association.isBounded_of_read {j : Json} {a : Association} (h : ofJson? j = some a) :
    ∀ m ∈ a.multiplicities, m.IsBounded := by
  simp only [ofJson?, bind_eq_some, pure_eq_some, list_eq] at h
  obtain ⟨r, -, properties, hp, derived, hd, annotations, -, rfl⟩ := h
  rw [multiplicities, List.forall_mem_append, List.forall_mem_map, List.forall_mem_map]
  exact ⟨forall_mem_of_list hp Property.isBounded_of_read,
    forall_mem_of_list hd DerivedProperty.isBounded_of_read⟩

theorem Function.isBounded_of_read {j : Json} {f : Function} (h : ofJson? j = some f) :
    ∀ m ∈ f.multiplicities, m.IsBounded := by
  simp only [ofJson?, bind_eq_some, pure_eq_some, list_eq, required_eq] at h
  obtain ⟨r, -, parameters, hp, returnType, -, multiplicity, hm, body, -, annotations, -, rfl⟩ := h
  rw [multiplicities, List.forall_mem_cons, List.forall_mem_map]
  exact ⟨Multiplicity.isBounded_of_required hm,
    forall_mem_of_list hp Parameter.isBounded_of_read⟩

/-- Numbers are within bounds, and slots fit. -/
def Body.IsBounded : Body → Prop
  | .class c => ∀ m ∈ c.multiplicities, m.IsBounded
  | .association a => ∀ m ∈ a.multiplicities, m.IsBounded
  | .function f => ∀ m ∈ f.multiplicities, m.IsBounded
  | .mapping m => m.Fits ∧ ∀ e ∈ m.enumerationMappings, e.IsBounded
  | _ => True

theorem Entry.isBounded_body {r : Registry} {e : Entry} {b : Body} (h : e.body r = .ok b) :
    b.IsBounded := by
  rw [body] at h
  cases hk : e.kind with
  | extension k =>
    rw [hk] at h
    obtain ⟨x, -, rfl⟩ := Option.map_eq_some_iff.mp (require_eq_ok.mp h)
    trivial
  | core c =>
    rw [hk] at h
    cases c with
    | mapping =>
      obtain ⟨m, hm, rfl⟩ := map_eq_ok.mp h
      exact fits_of_mapping hm
    | «class» =>
      obtain ⟨c, hc, rfl⟩ := Option.map_eq_some_iff.mp (require_eq_ok.mp h)
      exact Class.isBounded_of_read hc
    | association =>
      obtain ⟨a, ha, rfl⟩ := Option.map_eq_some_iff.mp (require_eq_ok.mp h)
      exact Association.isBounded_of_read ha
    | function =>
      obtain ⟨f, hf, rfl⟩ := Option.map_eq_some_iff.mp (require_eq_ok.mp h)
      exact Function.isBounded_of_read hf
    | _ =>
      obtain ⟨x, -, rfl⟩ := Option.map_eq_some_iff.mp (require_eq_ok.mp h)
      trivial

namespace SetImplementation

variable {s : SetImplementation} {f : Rebinding}

@[simp]
theorem embedded?_rebind (p : PropertyMapping) : (p.rebind f).embedded? = p.embedded? := by
  cases hk : p.kind <;> simp [PropertyMapping.embedded?, PropertyMapping.rebind, hk]

def shape (s : SetImplementation) : List Nat × Bool × Bool × List Aggregate :=
  (s.inner, s.kind.isEmbedded, s.id.isInferred, s.kind.aggregates)

theorem shape_rebind : (s.rebind f).shape = s.shape := by
  cases hk : s.kind <;>
    simp [shape, inner, SetImplementation.properties, rebind, rebindKind, hk, List.filterMap_map,
      SetImplementationKind.isEmbedded, SetImplementationKind.aggregates]

theorem shape_unwire : s.unwire.shape = s.shape := by
  have hembedded : ∀ ps : List PropertyMapping,
      (ps.map fun p => { p with producer := none }).filterMap PropertyMapping.embedded? =
        ps.filterMap PropertyMapping.embedded? := by
    intro ps
    rw [List.filterMap_map]
    rfl
  cases hk : s.kind <;>
    simp [shape, inner, SetImplementation.properties, unwire, mapProperties, mapParameters, hk,
      hembedded, SetImplementationKind.isEmbedded, SetImplementationKind.aggregates,
      -List.filterMap_map]

theorem fits_iff {index : Nat} {s t : SetImplementation} (h : s.shape = t.shape) :
    s.Fits index ↔ t.Fits index := by
  have hfits : ∀ {s t : SetImplementation}, s.shape = t.shape → s.Fits index → t.Fits index := by
    intro s t h hs
    simp only [shape, Prod.mk.injEq] at h
    obtain ⟨hinner, hembedded, hinferred, haggregates⟩ := h
    exact ⟨hinner ▸ hs.inner, hembedded ▸ hinferred ▸ hs.explicit, haggregates ▸ hs.bounded⟩
  exact ⟨hfits h, hfits h.symm⟩

end SetImplementation

namespace Mapping

variable {m : Mapping} {f : Rebinding}

theorem fits_map {g : SetImplementation → SetImplementation} (hg : ∀ s, (g s).shape = s.shape)
    {m' : Mapping} (hs : m'.slots = m.slots.map g) : m'.Fits ↔ m.Fits := by
  constructor
  · intro h i s hi
    have hi' : m'.slots[i]? = some (g s) := by rw [hs, List.getElem?_map, hi]; rfl
    exact (SetImplementation.fits_iff (hg s)).mp (h hi')
  · intro h i s hi
    rw [hs, List.getElem?_map, Option.map_eq_some_iff] at hi
    obtain ⟨t, ht, rfl⟩ := hi
    exact (SetImplementation.fits_iff (hg t)).mpr (h ht)

theorem fits_rebind : (m.rebind f).Fits ↔ m.Fits :=
  fits_map (fun _ => SetImplementation.shape_rebind) rfl

theorem fits_unwire : m.unwire.Fits ↔ m.Fits :=
  fits_map (fun _ => SetImplementation.shape_unwire) rfl

end Mapping

theorem SourceValue.isBounded_rebind {f : Rebinding} {s : SourceValue} :
    (s.rebind f).IsBounded ↔ s.IsBounded := by
  cases s <;> rfl

theorem EnumerationMapping.isBounded_rebind {f : Rebinding} {m : EnumerationMapping} :
    (m.rebind f).IsBounded ↔ m.IsBounded := by
  simp only [IsBounded, rebind, List.forall_mem_map, SourceValue.isBounded_rebind]

namespace Body

variable {b b' : Body} {f : Rebinding}

theorem isBounded_rebind : (b.rebind f).IsBounded ↔ b.IsBounded := by
  cases b with
  | «class» c =>
    simp only [rebind, IsBounded, Class.multiplicities, Class.rebind, List.map_map]
    rfl
  | association a =>
    simp only [rebind, IsBounded, Association.multiplicities, Association.rebind, List.map_map]
    rfl
  | function g =>
    simp only [rebind, IsBounded, Function.multiplicities, Function.rebind, List.map_map]
    rfl
  | mapping m =>
    refine and_congr Mapping.fits_rebind ?_
    simp only [Mapping.rebind, List.forall_mem_map, EnumerationMapping.isBounded_rebind]
  | _ => rfl

theorem isBounded_unwire : b.unwire.IsBounded ↔ b.IsBounded := by
  cases b with
  | mapping m => exact and_congr_left' Mapping.fits_unwire
  | _ => rfl

theorem isBounded_hull : b.hull.IsBounded ↔ b.IsBounded := by
  cases b <;> rfl

end Body

namespace Graph

variable {g g₁ : Graph} {r : Registry} {m : Model} {entries : List Entry}
  {contents : List (Path × Body)}

theorem Prepared.isBounded (p : Prepared r m entries contents g₁) {q : Path} {b : Body}
    (hb : Stock contents q b) : b.IsBounded := by
  cases hb with
  | primitive hn => trivial
  | content hb =>
    obtain ⟨e, -, hcontent⟩ := (mem_of_mapM_ok p.contents_eq).mp hb
    exact Entry.isBounded_body (Entry.content_eq_ok.mp hcontent).1
  | package hb hq => trivial

theorem Prepared.isBounded_live {freeze : Bool} (p : Prepared r m entries contents g₁)
    (hb : build r freeze m = .ok g) {h : Handle} {e : Element} (hl : g.LiveAt h e) :
    e.body.IsBounded := by
  have f := p.finished hb
  obtain ⟨e₁, hl₁, -, hs⟩ := f.gained hl
  have hbounded := Body.isBounded_hull.mp (p.isBounded hs)
  rw [← Body.isBounded_unwire, f.unwire_body_eq hl hl₁, Body.isBounded_unwire,
    Body.isBounded_rebind]
  exact hbounded

end Graph
end ModelGraph
