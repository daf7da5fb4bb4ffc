import ModelGraph.Body
import ModelGraph.Extension.Presets

namespace ModelGraph

def Rebinding.onLink (f : Rebinding) (l : Link) : Link := (f l.family ⟨l.path, l.target⟩).link

@[simp]
theorem Reference.link_rebind {family : Family} (f : Rebinding) (r : Reference family) :
    (f family r).link = f.onLink r.link := rfl

section Rebind

variable (f : Rebinding)

@[simp]
theorem Annotations.links_rebind (a : Annotations) : (a.rebind f).links = a.links.map f.onLink := by
  simp [links, rebind, Function.comp_def]

@[simp]
theorem Property.links_rebind (p : Property) : (p.rebind f).links = p.links.map f.onLink := by
  simp [links, rebind]

@[simp]
theorem DerivedProperty.links_rebind (p : DerivedProperty) :
    (p.rebind f).links = p.links.map f.onLink := by
  simp [links, rebind]

theorem Class.links_rebind (c : Class) : (c.rebind f).links = c.links.map f.onLink := by
  simp [links, rebind, Function.comp_def, List.map_flatMap, List.flatMap_map]

theorem Association.links_rebind (a : Association) :
    (a.rebind f).links = a.links.map f.onLink := by
  simp [links, rebind, List.map_flatMap, List.flatMap_map]

theorem Enumeration.links_rebind (e : Enumeration) :
    (e.rebind f).links = e.links.map f.onLink := by
  simp [links, rebind, EnumValue.rebind, List.map_flatMap, List.flatMap_map]

theorem Function.links_rebind (g : Function) : (g.rebind f).links = g.links.map f.onLink := by
  simp [links, rebind, Parameter.rebind, Function.comp_def]

mutual

@[simp]
theorem RelationalOperation.links_rebind (o : RelationalOperation) :
    (o.rebind f).links = o.links.map f.onLink := by
  cases o with
  | column table tableAlias name => simp [rebind, links, TablePointer.rebind]
  | call name parameters => simp [rebind, links, linksOf_rebindAll parameters]
  | literal value => simp [rebind, links]
  | joined joins element =>
    cases element with
    | none => simp [rebind, links, JoinPointer.rebind, Function.comp_def]
    | some element =>
      simp [rebind, links, JoinPointer.rebind, Function.comp_def, links_rebind element]

theorem RelationalOperation.linksOf_rebindAll (os : List RelationalOperation) :
    linksOf (rebindAll f os) = (linksOf os).map f.onLink := by
  cases os with
  | nil => simp [rebindAll, linksOf]
  | cons o os => simp [rebindAll, linksOf, links_rebind o, linksOf_rebindAll os]

end

theorem Database.links_rebind (d : Database) : (d.rebind f).links = d.links.map f.onLink := by
  simp [links, rebind, Join.rebind, Function.comp_def, List.map_flatMap, List.flatMap_map]

@[simp]
theorem ConnectionStore.links_rebind (s : ConnectionStore) :
    (s.rebind f).links = s.links.map f.onLink := by
  cases s <;> simp [links, rebind]

@[simp]
theorem Connection.links_rebind (c : Connection) : (c.rebind f).links = c.links.map f.onLink := by
  cases hc : c.store <;> simp [links, rebind, hc]

@[simp]
theorem ConnectionValue.links_rebind (c : ConnectionValue) :
    (c.rebind f).links = c.links.map f.onLink := by
  cases c <;> simp [links, rebind]

@[simp]
theorem StoreConnections.links_rebind (g : StoreConnections) :
    (g.rebind f).links = g.links.map f.onLink := by
  simp [links, rebind, IdentifiedConnection.rebind, List.map_flatMap, List.flatMap_map]

@[simp]
theorem Runtime.links_rebind (r : Runtime) : (r.rebind f).links = r.links.map f.onLink := by
  simp [links, rebind, Function.comp_def, List.map_flatMap, List.flatMap_map]

@[simp]
theorem RuntimeValue.links_rebind (r : RuntimeValue) :
    (r.rebind f).links = r.links.map f.onLink := by
  cases r <;> simp [links, rebind]

@[simp]
theorem Execution.links_rebind (e : Execution) : (e.rebind f).links = e.links.map f.onLink := by
  simp [links, rebind]

theorem Service.links_rebind (s : Service) : (s.rebind f).links = s.links.map f.onLink := by
  cases he : s.execution <;> simp [links, rebind, he]

@[simp]
theorem SourceValue.links_rebind (s : SourceValue) : (s.rebind f).links = s.links.map f.onLink := by
  cases s <;> simp [links, rebind]

@[simp]
theorem EnumerationMapping.links_rebind (m : EnumerationMapping) :
    (m.rebind f).links = m.links.map f.onLink := by
  simp [links, rebind, List.map_flatMap, List.flatMap_map]

@[simp]
theorem PropertyMapping.links_rebind (p : PropertyMapping) :
    (p.rebind f).links = p.links.map f.onLink := by
  cases hk : p.kind <;> simp [links, rebind, hk]

@[simp]
theorem Verbatim.links_rebind (v : Verbatim) : (v.rebind f).links = v.links.map f.onLink := by
  simp [links, rebind, Function.comp_def]

@[simp]
theorem ClassMappingExtension.links_rebind (e : ClassMappingExtension) :
    (e.rebind f).links = e.links.map f.onLink := by
  cases e <;> simp [links, rebind, Function.comp_def]

@[simp]
theorem SetImplementation.links_rebind (s : SetImplementation) :
    (s.rebind f).links = s.links.map f.onLink := by
  cases hk : s.kind with
  | pureInstance source filter properties =>
    cases source <;>
      simp [links, rebind, rebindKind, kindLinks, SetImplementation.properties, hk, List.map_flatMap,
        List.flatMap_map]
  | relational distinct table key properties =>
    cases table <;>
      simp [links, rebind, rebindKind, kindLinks, SetImplementation.properties, hk,
        TablePointer.rebind, List.map_flatMap, List.flatMap_map]
  | embedded properties =>
    simp [links, rebind, rebindKind, kindLinks, SetImplementation.properties, hk,
      List.map_flatMap, List.flatMap_map]
  | aggregationAware main aggregates properties =>
    simp [links, rebind, rebindKind, kindLinks, SetImplementation.properties, hk,
      List.map_flatMap, List.flatMap_map]
  | operation operation parameters =>
    simp [links, rebind, rebindKind, kindLinks, SetImplementation.properties, hk]
  | extension e => simp [links, rebind, rebindKind, kindLinks, SetImplementation.properties, hk]

theorem Mapping.links_rebind (m : Mapping) : (m.rebind f).links = m.links.map f.onLink := by
  simp [links, rebind, Function.comp_def, List.map_flatMap, List.flatMap_map]

theorem Diagram.links_rebind (d : Diagram) : (d.rebind f).links = d.links.map f.onLink := by
  simp [links, rebind, Function.comp_def]

theorem ServiceStore.links_rebind (s : ServiceStore) :
    (s.rebind f).links = s.links.map f.onLink := by
  simp [links, rebind, Function.comp_def]

theorem SerializerSchema.links_rebind (s : SerializerSchema) :
    (s.rebind f).links = s.links.map f.onLink := by
  cases hs : s.store <;> simp [links, rebind, hs, Function.comp_def]

@[simp]
theorem Extension.kind_rebind (e : Extension) : (e.rebind f).kind = e.kind := by
  cases e <;> rfl

theorem Extension.links_rebind (e : Extension) : (e.rebind f).links = e.links.map f.onLink := by
  cases e with
  | text t => rfl
  | diagram d => exact d.links_rebind f
  | serviceStore s => exact s.links_rebind f
  | schema s => exact s.links_rebind f
  | verbatim v => exact v.links_rebind f

theorem Body.links_rebind (b : Body) : (b.rebind f).links = b.links.map f.onLink := by
  cases b with
  | package children => rfl
  | primitiveType => rfl
  | profile p => rfl
  | enumeration e => exact e.links_rebind f
  | «class» c => exact c.links_rebind f
  | association a => exact a.links_rebind f
  | function g => exact g.links_rebind f
  | database d => exact d.links_rebind f
  | mapping m => exact m.links_rebind f
  | connection c => exact c.links_rebind f
  | runtime r => exact r.links_rebind f
  | service s => exact s.links_rebind f
  | extension e => exact e.links_rebind f

end Rebind

section Prune

variable (isDead : Handle → Bool)

theorem Runtime.links_prune (r : Runtime) : (r.prune isDead).links ⊆ r.links := by
  simp only [links, prune]
  apply List.append_subset.mpr
  constructor
  · intro l hl
    obtain ⟨m, hm, rfl⟩ := List.mem_map.mp hl
    exact List.mem_append_left _ (List.mem_map_of_mem (List.mem_filter.mp hm).1)
  · intro l hl
    obtain ⟨g, hg, hl⟩ := List.mem_flatMap.mp hl
    exact List.mem_append_right _ (List.mem_flatMap.mpr ⟨g, (List.mem_filter.mp hg).1, hl⟩)

theorem RuntimeValue.links_prune (r : RuntimeValue) : (r.prune isDead).links ⊆ r.links := by
  cases r with
  | pointer r => exact List.Subset.refl _
  | embedded r => exact r.links_prune isDead

theorem Service.links_prune (s : Service) : (s.prune isDead).links ⊆ s.links := by
  cases he : s.execution with
  | none => simp [links, prune, he]
  | some e =>
    intro l hl
    simp only [links, prune, he, Option.map_some, Execution.links, List.mem_append,
      List.mem_cons] at hl ⊢
    rcases hl with (hl | hl) | hl
    · exact .inl (.inl hl)
    · exact .inl (.inr (e.runtime.links_prune isDead hl))
    · exact .inr hl

theorem Mapping.links_prune (m : Mapping) : (m.prune isDead).links ⊆ m.links := by
  intro l hl
  simp only [links, prune, List.mem_append, List.mem_map, List.mem_flatMap, List.mem_filter] at hl ⊢
  rcases hl with (⟨r, ⟨hr, _⟩, hl⟩ | hl) | ⟨e, ⟨he, _⟩, hl⟩
  · exact .inl (.inl ⟨r, hr, hl⟩)
  · exact .inl (.inr hl)
  · exact .inr ⟨e, he, hl⟩

theorem Body.links_prune (b : Body) : (b.prune isDead).links ⊆ b.links := by
  cases b with
  | «class» c =>
    intro l hl
    simp only [prune, links, Class.links, List.mem_append, List.mem_map, List.mem_filter] at hl ⊢
    rcases hl with ((⟨r, ⟨hr, _⟩, hl⟩ | hl) | hl) | hl
    · exact .inl (.inl (.inl ⟨r, hr, hl⟩))
    · exact .inl (.inl (.inr hl))
    · exact .inl (.inr hl)
    · exact .inr hl
  | database d =>
    intro l hl
    simp only [prune, links, Database.links, List.mem_append, List.mem_map, List.mem_filter] at hl ⊢
    rcases hl with ⟨r, ⟨hr, _⟩, hl⟩ | hl
    · exact .inl ⟨r, hr, hl⟩
    · exact .inr hl
  | mapping m => exact m.links_prune isDead
  | runtime r => exact r.links_prune isDead
  | service s => exact s.links_prune isDead
  | _ => exact List.Subset.refl _

end Prune
end ModelGraph
