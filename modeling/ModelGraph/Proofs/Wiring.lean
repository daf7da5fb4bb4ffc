import ModelGraph.Proofs.Phases
import ModelGraph.Proofs.Spelling

namespace ModelGraph

namespace SetImplementation

theorem unwire_rebind (f : Rebinding) (s : SetImplementation) :
    (s.rebind f).unwire = s.unwire.rebind f := by
  cases hk : s.kind <;>
    simp [rebind, rebindKind, unwire, mapProperties, mapParameters, hk, PropertyMapping.rebind]

theorem unwire_unwire (s : SetImplementation) : s.unwire.unwire = s.unwire := by
  cases hk : s.kind <;> simp [unwire, mapProperties, mapParameters, hk]

/-- Whatever the producers of parameters and property mappings become, they go when the set
implementation is unwired. -/
theorem unwire_mapped {f : PropertyMapping → PropertyMapping}
    {k : OperationParameter → OperationParameter}
    (hf : ∀ p, { f p with producer := none } = { p with producer := none })
    (hk : ∀ p, { k p with producer := none } = { p with producer := none })
    (s : SetImplementation) : ((s.mapParameters k).mapProperties f).unwire = s.unwire := by
  cases hs : s.kind <;>
    simp [unwire, mapProperties, mapParameters, hs, Function.comp_def, hf, hk]

@[simp]
theorem links_unwire (s : SetImplementation) : s.unwire.links = s.links := by
  have hp : ∀ p : PropertyMapping, PropertyMapping.links { p with producer := none } = p.links :=
    fun _ => rfl
  cases hk : s.kind <;>
    simp [links, kindLinks, properties, unwire, mapProperties, mapParameters, hk, List.flatMap_map,
      hp]

end SetImplementation

namespace Mapping

theorem unwire_rebind (f : Rebinding) (m : Mapping) :
    (m.rebind f).unwire = m.unwire.rebind f := by
  simp [rebind, unwire, SetImplementation.unwire_rebind]

theorem unwire_unwire (m : Mapping) : m.unwire.unwire = m.unwire := by
  simp [unwire, SetImplementation.unwire_unwire]

@[simp]
theorem links_unwire (m : Mapping) : m.unwire.links = m.links := by
  simp [links, unwire, List.flatMap_map]

end Mapping

namespace Body

theorem unwire_rebind (f : Rebinding) (b : Body) : (b.rebind f).unwire = b.unwire.rebind f := by
  cases b with
  | mapping m => exact congrArg mapping (m.unwire_rebind f)
  | _ => rfl

theorem unwire_unwire (b : Body) : b.unwire.unwire = b.unwire := by
  cases b with
  | mapping m => exact congrArg mapping m.unwire_unwire
  | _ => rfl

@[simp]
theorem kind_unwire (b : Body) : b.unwire.kind = b.kind := by
  cases b <;> rfl

@[simp]
theorem children_unwire (b : Body) : b.unwire.children = b.children := by
  cases b <;> rfl

@[simp]
theorem links_unwire (b : Body) : b.unwire.links = b.links := by
  cases b with
  | mapping m => exact m.links_unwire
  | _ => rfl

theorem spelled_of_unwire {b b' : Body} (h : b'.unwire = b.unwire) (names : Naming) :
    b'.spelled names = b.spelled names := by
  rw [spelled, spelled, unwire_rebind, unwire_rebind, h]

end Body

/-- The post of an element, and its body with nothing bound by wiring. -/
def Element.unwired (e : Element) : (ElementPlace × Kind) × Body := (e.post, e.body.unwire)

namespace Graph

variable {g g' : Graph}

theorem unwire_wireSlot (g : Graph) (h : Handle) (s : SetImplementation) :
    (g.wireSlot h s).unwire = s.unwire := by
  apply SetImplementation.unwire_mapped
  · intro p
    rw [wireProperty]
    split <;> rfl
  · intro p
    rw [wireParameter]
    split <;> rfl

theorem unwire_wireBody (g : Graph) (h : Handle) (b : Body) :
    (g.wireBody h b).unwire = b.unwire := by
  cases b with
  | mapping m => simp [wireBody, Body.unwire, Mapping.unwire, unwire_wireSlot]
  | _ => rfl

theorem unwired_eq_of_body {e : Element} {b : Body} (hb : b.unwire = e.body.unwire) :
    ({ e with body := b } : Element).unwired = e.unwired := by
  have hk := congrArg Body.kind hb
  have hc := congrArg Body.children hb
  rw [Body.kind_unwire, Body.kind_unwire] at hk
  rw [Body.children_unwire, Body.children_unwire] at hc
  exact Prod.ext (Element.post_eq_of_body rfl rfl rfl rfl hk hc) hb

theorem keeps_wire (h : Handle) (g : Graph) : Keeps Element.unwired g (g.wire h).1 :=
  Keeps.update fun e _ => unwired_eq_of_body (unwire_wireBody g h e.body)

theorem keeps_wireAll (g : Graph) : Keeps Element.unwired g g.wireAll.1 :=
  Keeps.foldl (fun g' h _ => keeps_wire h g') g

theorem keeps_concluded (freeze : Bool) (g : Graph) :
    Keeps Element.unwired g (if freeze then g.freeze else g) := by
  cases freeze with
  | false => exact .refl g
  | true =>
    refine ⟨rfl, rfl, rfl, fun h => ?_⟩
    rw [if_pos rfl, element?_freeze, Option.map_map]
    rfl

theorem keeps_of_conclude {freeze : Bool} (h : conclude freeze g = .ok g') :
    Keeps Element.unwired g g' := by
  obtain ⟨-, -, rfl⟩ := conclude_eq_ok.mp h
  exact (keeps_wireAll g).trans (keeps_concluded freeze _)

theorem Keeps.post (s : Keeps Element.unwired g g') : Keeps Element.post g g' := s.map Prod.fst

theorem resolutionFaults_eq_nil (w : g.WellFormed) : g.resolutionFaults = [] ↔
    ∀ h e, g.LiveAt h e → ∀ l ∈ e.body.links, ∃ t, g.resolve l = .ok t := by
  simp only [resolutionFaults, List.flatMap_eq_nil_iff, List.map_eq_nil_iff, resolveFaults,
    List.filterMap_eq_nil_iff, resolveFault?]
  constructor
  · intro hf h e hl l hm
    have hlive : (h, e) ∈ g.live :=
      List.mem_filterMap.mpr ⟨h, w.mem_values_iff.mpr ⟨e, hl⟩, by rw [hl.1]; rfl⟩
    have hr := hf _ hlive l hm
    cases ht : g.resolve l with
    | ok t => exact ⟨t, rfl⟩
    | error fault =>
      rw [ht] at hr
      cases hr
  · intro hr p hp l hm
    obtain ⟨h, hv, he⟩ := List.mem_filterMap.mp hp
    obtain ⟨e, hl⟩ := w.mem_values_iff.mp hv
    rw [hl.1] at he
    cases he
    obtain ⟨t, ht⟩ := hr h e hl l hm
    rw [ht]

theorem bind_link {F : Family} {ref : Reference F} {t : Handle} (h : g.resolve ref.link = .ok t) :
    g.bind F ref = .bound ref.path t := by
  rw [bind, h]
  rfl

end Graph
end ModelGraph
