import ModelGraph.Proofs.Links

namespace ModelGraph

def Rebinding.after (g f : Rebinding) : Rebinding := fun F r => g F (f F r)

/-- Gives references the paths of a naming. What they are bound to stays. -/
def repath (names : Naming) : Rebinding := fun _ r => { r with path := names r.link }

section Identity

@[simp]
theorem repath_path (F : Family) : repath Link.path F = id := rfl

@[simp]
theorem Annotations.rebind_path (a : Annotations) : a.rebind (repath Link.path) = a := by
  simp [rebind]

@[simp]
theorem Property.rebind_path (p : Property) : p.rebind (repath Link.path) = p := by
  simp [rebind]

@[simp]
theorem DerivedProperty.rebind_path (p : DerivedProperty) : p.rebind (repath Link.path) = p := by
  simp [rebind]

theorem Class.rebind_path (c : Class) : c.rebind (repath Link.path) = c := by
  simp [rebind]

theorem Association.rebind_path (a : Association) : a.rebind (repath Link.path) = a := by
  simp [rebind]

theorem Enumeration.rebind_path (e : Enumeration) : e.rebind (repath Link.path) = e := by
  simp [rebind, EnumValue.rebind]

theorem Function.rebind_path (f : Function) : f.rebind (repath Link.path) = f := by
  simp [rebind, Parameter.rebind]

@[simp]
theorem TablePointer.rebind_path (t : TablePointer) : t.rebind (repath Link.path) = t := rfl

@[simp]
theorem JoinPointer.rebind_path (p : JoinPointer) : p.rebind (repath Link.path) = p := rfl

mutual

@[simp]
theorem RelationalOperation.rebind_path (o : RelationalOperation) :
    o.rebind (repath Link.path) = o := by
  cases o with
  | column table tableAlias name => simp [rebind]
  | call name parameters => simp [rebind, rebindAll_path parameters]
  | literal value => simp [rebind]
  | joined joins element =>
    cases element with
    | none => simp [rebind]
    | some element => simp [rebind, rebind_path element]

theorem RelationalOperation.rebindAll_path (os : List RelationalOperation) :
    rebindAll (repath Link.path) os = os := by
  cases os with
  | nil => simp [rebindAll]
  | cons o os => simp [rebindAll, rebind_path o, rebindAll_path os]

end

theorem Database.rebind_path (d : Database) : d.rebind (repath Link.path) = d := by
  simp [rebind, Join.rebind]

@[simp]
theorem ConnectionStore.rebind_path (s : ConnectionStore) : s.rebind (repath Link.path) = s := by
  cases s <;> rfl

@[simp]
theorem Connection.rebind_path (c : Connection) : c.rebind (repath Link.path) = c := by
  simp [rebind]

@[simp]
theorem ConnectionValue.rebind_path (c : ConnectionValue) : c.rebind (repath Link.path) = c := by
  cases c <;> simp [rebind]

@[simp]
theorem StoreConnections.rebind_path (s : StoreConnections) :
    s.rebind (repath Link.path) = s := by
  simp [rebind, IdentifiedConnection.rebind]

@[simp]
theorem Runtime.rebind_path (r : Runtime) : r.rebind (repath Link.path) = r := by
  simp [rebind]

@[simp]
theorem RuntimeValue.rebind_path (r : RuntimeValue) : r.rebind (repath Link.path) = r := by
  cases r <;> simp [rebind]

@[simp]
theorem Execution.rebind_path (e : Execution) : e.rebind (repath Link.path) = e := by
  simp [rebind]

theorem Service.rebind_path (s : Service) : s.rebind (repath Link.path) = s := by
  simp [rebind]

@[simp]
theorem SourceValue.rebind_path (s : SourceValue) : s.rebind (repath Link.path) = s := by
  cases s <;> rfl

@[simp]
theorem EnumerationMapping.rebind_path (m : EnumerationMapping) :
    m.rebind (repath Link.path) = m := by
  simp [rebind]

@[simp]
theorem PropertyMapping.rebind_path (p : PropertyMapping) : p.rebind (repath Link.path) = p := by
  cases p with
  | mk owner property source target enumerationMapping kind producer =>
    cases kind <;> simp [rebind]

@[simp]
theorem Verbatim.rebind_path (v : Verbatim) : v.rebind (repath Link.path) = v := by
  simp [rebind]

@[simp]
theorem ClassMappingExtension.rebind_path (e : ClassMappingExtension) :
    e.rebind (repath Link.path) = e := by
  cases e <;> simp [rebind]

@[simp]
theorem SetImplementation.rebind_path (s : SetImplementation) :
    s.rebind (repath Link.path) = s := by
  cases s with
  | mk id target root kind => cases kind <;> simp [rebind, rebindKind]

theorem Mapping.rebind_path (m : Mapping) : m.rebind (repath Link.path) = m := by
  simp [rebind]

theorem Extension.rebind_path (e : Extension) : e.rebind (repath Link.path) = e := by
  cases e with
  | text t => rfl
  | diagram d => simp [rebind, Diagram.rebind]
  | serviceStore s => simp [rebind, ServiceStore.rebind]
  | schema s => simp [rebind, SerializerSchema.rebind]
  | verbatim v => simp [rebind]

theorem Body.rebind_path (b : Body) : b.rebind (repath Link.path) = b := by
  cases b with
  | package children => rfl
  | primitiveType => rfl
  | profile p => rfl
  | enumeration e => exact congrArg Body.enumeration e.rebind_path
  | «class» c => exact congrArg Body.class c.rebind_path
  | association a => exact congrArg Body.association a.rebind_path
  | function f => exact congrArg Body.function f.rebind_path
  | database d => exact congrArg Body.database d.rebind_path
  | mapping m => exact congrArg Body.mapping m.rebind_path
  | connection c => exact congrArg Body.connection c.rebind_path
  | runtime r => exact congrArg Body.runtime r.rebind_path
  | service s => exact congrArg Body.service s.rebind_path
  | extension e => exact congrArg Body.extension e.rebind_path

end Identity

section Twice

variable (f g : Rebinding)

theorem Rebinding.after_eq (F : Family) : g.after f F = g F ∘ f F := rfl

@[simp]
theorem Annotations.rebind_rebind (a : Annotations) :
    (a.rebind f).rebind g = a.rebind (g.after f) := by
  simp [rebind, Function.comp_def, Rebinding.after_eq]

@[simp]
theorem Property.rebind_rebind (p : Property) : (p.rebind f).rebind g = p.rebind (g.after f) := by
  simp [rebind, Rebinding.after_eq]

@[simp]
theorem DerivedProperty.rebind_rebind (p : DerivedProperty) :
    (p.rebind f).rebind g = p.rebind (g.after f) := by
  simp [rebind, Rebinding.after_eq]

theorem Class.rebind_rebind (c : Class) : (c.rebind f).rebind g = c.rebind (g.after f) := by
  simp [rebind, Function.comp_def, Rebinding.after_eq]

theorem Association.rebind_rebind (a : Association) :
    (a.rebind f).rebind g = a.rebind (g.after f) := by
  simp [rebind, Function.comp_def]

theorem Enumeration.rebind_rebind (e : Enumeration) :
    (e.rebind f).rebind g = e.rebind (g.after f) := by
  simp [rebind, EnumValue.rebind, Function.comp_def]

theorem Function.rebind_rebind (h : Function) : (h.rebind f).rebind g = h.rebind (g.after f) := by
  simp [rebind, Parameter.rebind, Function.comp_def, Rebinding.after_eq]

@[simp]
theorem TablePointer.rebind_rebind (t : TablePointer) :
    (t.rebind f).rebind g = t.rebind (g.after f) := rfl

@[simp]
theorem JoinPointer.rebind_rebind (p : JoinPointer) :
    (p.rebind f).rebind g = p.rebind (g.after f) := rfl

mutual

@[simp]
theorem RelationalOperation.rebind_rebind (o : RelationalOperation) :
    (o.rebind f).rebind g = o.rebind (g.after f) := by
  cases o with
  | column table tableAlias name => simp [rebind]
  | call name parameters => simp [rebind, rebindAll_rebindAll parameters]
  | literal value => simp [rebind]
  | joined joins element =>
    cases element with
    | none => simp [rebind, Function.comp_def]
    | some element => simp [rebind, Function.comp_def, rebind_rebind element]

theorem RelationalOperation.rebindAll_rebindAll (os : List RelationalOperation) :
    rebindAll g (rebindAll f os) = rebindAll (g.after f) os := by
  cases os with
  | nil => simp [rebindAll]
  | cons o os => simp [rebindAll, rebind_rebind o, rebindAll_rebindAll os]

end

theorem Database.rebind_rebind (d : Database) : (d.rebind f).rebind g = d.rebind (g.after f) := by
  simp [rebind, Join.rebind, Function.comp_def, Rebinding.after_eq]

@[simp]
theorem ConnectionStore.rebind_rebind (s : ConnectionStore) :
    (s.rebind f).rebind g = s.rebind (g.after f) := by
  cases s <;> rfl

@[simp]
theorem Connection.rebind_rebind (c : Connection) :
    (c.rebind f).rebind g = c.rebind (g.after f) := by
  simp [rebind, Function.comp_def]

@[simp]
theorem ConnectionValue.rebind_rebind (c : ConnectionValue) :
    (c.rebind f).rebind g = c.rebind (g.after f) := by
  cases c <;> simp [rebind, Rebinding.after_eq]

@[simp]
theorem StoreConnections.rebind_rebind (s : StoreConnections) :
    (s.rebind f).rebind g = s.rebind (g.after f) := by
  simp [rebind, IdentifiedConnection.rebind, Function.comp_def]

@[simp]
theorem Runtime.rebind_rebind (r : Runtime) : (r.rebind f).rebind g = r.rebind (g.after f) := by
  simp [rebind, Function.comp_def, Rebinding.after_eq]

@[simp]
theorem RuntimeValue.rebind_rebind (r : RuntimeValue) :
    (r.rebind f).rebind g = r.rebind (g.after f) := by
  cases r <;> simp [rebind, Rebinding.after_eq]

@[simp]
theorem Execution.rebind_rebind (e : Execution) :
    (e.rebind f).rebind g = e.rebind (g.after f) := by
  simp [rebind, Rebinding.after_eq]

theorem Service.rebind_rebind (s : Service) : (s.rebind f).rebind g = s.rebind (g.after f) := by
  simp [rebind, Function.comp_def]

@[simp]
theorem SourceValue.rebind_rebind (s : SourceValue) :
    (s.rebind f).rebind g = s.rebind (g.after f) := by
  cases s <;> rfl

@[simp]
theorem EnumerationMapping.rebind_rebind (m : EnumerationMapping) :
    (m.rebind f).rebind g = m.rebind (g.after f) := by
  simp [rebind, Function.comp_def, Rebinding.after_eq]

@[simp]
theorem PropertyMapping.rebind_rebind (p : PropertyMapping) :
    (p.rebind f).rebind g = p.rebind (g.after f) := by
  cases hk : p.kind <;> simp [rebind, hk, Rebinding.after_eq]

@[simp]
theorem Verbatim.rebind_rebind (v : Verbatim) : (v.rebind f).rebind g = v.rebind (g.after f) := by
  simp [rebind, Function.comp_def, Rebinding.after_eq]

@[simp]
theorem ClassMappingExtension.rebind_rebind (e : ClassMappingExtension) :
    (e.rebind f).rebind g = e.rebind (g.after f) := by
  cases e <;> simp [rebind, Function.comp_def, Rebinding.after_eq]

@[simp]
theorem SetImplementation.rebind_rebind (s : SetImplementation) :
    (s.rebind f).rebind g = s.rebind (g.after f) := by
  cases hk : s.kind <;>
    simp [rebind, rebindKind, hk, Function.comp_def, Rebinding.after_eq]

theorem Mapping.rebind_rebind (m : Mapping) : (m.rebind f).rebind g = m.rebind (g.after f) := by
  simp [rebind, Function.comp_def, Rebinding.after_eq]

theorem Extension.rebind_rebind (e : Extension) : (e.rebind f).rebind g = e.rebind (g.after f) := by
  cases e with
  | text t => rfl
  | diagram d => simp [rebind, Diagram.rebind, Function.comp_def, Rebinding.after_eq]
  | serviceStore s => simp [rebind, ServiceStore.rebind, Function.comp_def, Rebinding.after_eq]
  | schema s => simp [rebind, SerializerSchema.rebind, Function.comp_def, Rebinding.after_eq]
  | verbatim v => simp [rebind]

theorem Body.rebind_rebind (b : Body) : (b.rebind f).rebind g = b.rebind (g.after f) := by
  cases b with
  | package children => rfl
  | primitiveType => rfl
  | profile p => rfl
  | enumeration e => exact congrArg Body.enumeration (e.rebind_rebind f g)
  | «class» c => exact congrArg Body.class (c.rebind_rebind f g)
  | association a => exact congrArg Body.association (a.rebind_rebind f g)
  | function h => exact congrArg Body.function (h.rebind_rebind f g)
  | database d => exact congrArg Body.database (d.rebind_rebind f g)
  | mapping m => exact congrArg Body.mapping (m.rebind_rebind f g)
  | connection c => exact congrArg Body.connection (c.rebind_rebind f g)
  | runtime r => exact congrArg Body.runtime (r.rebind_rebind f g)
  | service s => exact congrArg Body.service (s.rebind_rebind f g)
  | extension e => exact congrArg Body.extension (e.rebind_rebind f g)

end Twice

def Rebinding.Agree (f g : Rebinding) (links : List Link) : Prop :=
  ∀ l ∈ links, f.onLink l = g.onLink l

section Agree

open Rebinding

variable {f g : Rebinding}

@[simp]
theorem agree_nil : Agree f g [] := fun _ hl => absurd hl List.not_mem_nil

@[simp]
theorem agree_append {ls ms : List Link} : Agree f g (ls ++ ms) ↔ Agree f g ls ∧ Agree f g ms :=
  List.forall_mem_append

@[simp]
theorem agree_flatMap {α : Type} {xs : List α} {links : α → List Link} :
    Agree f g (xs.flatMap links) ↔ ∀ x ∈ xs, Agree f g (links x) := by
  simp only [Agree, List.mem_flatMap]
  constructor
  · intro h x hx l hl
    exact h l ⟨x, hx, hl⟩
  · rintro h l ⟨x, hx, hl⟩
    exact h x hx l hl

theorem onLink_eq_iff {F : Family} {r : Reference F} :
    f.onLink r.link = g.onLink r.link ↔ f F r = g F r := by
  rw [← Reference.link_rebind, ← Reference.link_rebind]
  constructor
  · intro h
    simp only [Reference.link, Link.mk.injEq, true_and] at h
    cases hf : f F r
    cases hg : g F r
    rw [hf, hg] at h
    obtain ⟨rfl, rfl⟩ := h
    rfl
  · intro h
    rw [h]

@[simp]
theorem agree_cons_link {F : Family} {r : Reference F} {ls : List Link} :
    Agree f g (r.link :: ls) ↔ f F r = g F r ∧ Agree f g ls := by
  rw [Agree, List.forall_mem_cons, onLink_eq_iff]
  rfl

@[simp]
theorem agree_map_link {α : Type} {F : Family} {xs : List α} {r : α → Reference F} :
    Agree f g (xs.map fun x => (r x).link) ↔ ∀ x ∈ xs, f F (r x) = g F (r x) := by
  rw [Agree, List.forall_mem_map]
  simp only [onLink_eq_iff]

@[simp]
theorem agree_map_references {F : Family} {rs : List (Reference F)} :
    Agree f g (rs.map Reference.link) ↔ ∀ r ∈ rs, f F r = g F r :=
  agree_map_link

@[simp]
theorem Annotations.rebind_eq_iff {a : Annotations} :
    a.rebind f = a.rebind g ↔ Agree f g a.links := by
  simp [rebind, links]

@[simp]
theorem Property.rebind_eq_iff {p : Property} : p.rebind f = p.rebind g ↔ Agree f g p.links := by
  simp [rebind, links]

@[simp]
theorem DerivedProperty.rebind_eq_iff {p : DerivedProperty} :
    p.rebind f = p.rebind g ↔ Agree f g p.links := by
  simp [rebind, links]

theorem Class.rebind_eq_iff {c : Class} : c.rebind f = c.rebind g ↔ Agree f g c.links := by
  simp [rebind, links]

theorem Association.rebind_eq_iff {a : Association} :
    a.rebind f = a.rebind g ↔ Agree f g a.links := by
  simp [rebind, links]

theorem Enumeration.rebind_eq_iff {e : Enumeration} :
    e.rebind f = e.rebind g ↔ Agree f g e.links := by
  simp [rebind, links, EnumValue.rebind, and_comm]

theorem Function.rebind_eq_iff {h : Function} : h.rebind f = h.rebind g ↔ Agree f g h.links := by
  simp [rebind, links, Parameter.rebind, and_left_comm]

mutual

@[simp]
theorem RelationalOperation.rebind_eq_iff {o : RelationalOperation} :
    o.rebind f = o.rebind g ↔ Agree f g o.links := by
  cases o with
  | column table tableAlias name => simp [rebind, links, TablePointer.rebind]
  | call name parameters => simp [rebind, links, rebindAll_eq_iff]
  | literal value => simp [rebind, links]
  | joined joins element =>
    cases element with
    | none => simp [rebind, links, JoinPointer.rebind]
    | some element => simp [rebind, links, JoinPointer.rebind, rebind_eq_iff]

theorem RelationalOperation.rebindAll_eq_iff {os : List RelationalOperation} :
    rebindAll f os = rebindAll g os ↔ Agree f g (linksOf os) := by
  cases os with
  | nil => simp [rebindAll, linksOf]
  | cons o os => simp [rebindAll, linksOf, rebind_eq_iff, rebindAll_eq_iff]

end

theorem Database.rebind_eq_iff {d : Database} : d.rebind f = d.rebind g ↔ Agree f g d.links := by
  simp [rebind, links, Join.rebind]

@[simp]
theorem ConnectionStore.rebind_eq_iff {s : ConnectionStore} :
    s.rebind f = s.rebind g ↔ Agree f g s.links := by
  cases s <;> simp [rebind, links]

@[simp]
theorem Connection.rebind_eq_iff {c : Connection} :
    c.rebind f = c.rebind g ↔ Agree f g c.links := by
  cases hc : c.store <;> simp [rebind, links, hc]

@[simp]
theorem ConnectionValue.rebind_eq_iff {c : ConnectionValue} :
    c.rebind f = c.rebind g ↔ Agree f g c.links := by
  cases c <;> simp [rebind, links]

@[simp]
theorem StoreConnections.rebind_eq_iff {s : StoreConnections} :
    s.rebind f = s.rebind g ↔ Agree f g s.links := by
  simp [rebind, links, IdentifiedConnection.rebind]

@[simp]
theorem Runtime.rebind_eq_iff {r : Runtime} : r.rebind f = r.rebind g ↔ Agree f g r.links := by
  simp [rebind, links]

@[simp]
theorem RuntimeValue.rebind_eq_iff {r : RuntimeValue} :
    r.rebind f = r.rebind g ↔ Agree f g r.links := by
  cases r <;> simp [rebind, links]

@[simp]
theorem Execution.rebind_eq_iff {e : Execution} :
    e.rebind f = e.rebind g ↔ Agree f g e.links := by
  simp [rebind, links]

theorem Service.rebind_eq_iff {s : Service} : s.rebind f = s.rebind g ↔ Agree f g s.links := by
  cases he : s.execution <;> simp [rebind, links, he]

@[simp]
theorem SourceValue.rebind_eq_iff {s : SourceValue} :
    s.rebind f = s.rebind g ↔ Agree f g s.links := by
  cases s <;> simp [rebind, links]

@[simp]
theorem EnumerationMapping.rebind_eq_iff {m : EnumerationMapping} :
    m.rebind f = m.rebind g ↔ Agree f g m.links := by
  simp [rebind, links]

@[simp]
theorem PropertyMapping.rebind_eq_iff {p : PropertyMapping} :
    p.rebind f = p.rebind g ↔ Agree f g p.links := by
  cases hk : p.kind <;> simp [rebind, links, hk]

@[simp]
theorem Verbatim.rebind_eq_iff {v : Verbatim} : v.rebind f = v.rebind g ↔ Agree f g v.links := by
  simp [rebind, links]

@[simp]
theorem ClassMappingExtension.rebind_eq_iff {e : ClassMappingExtension} :
    e.rebind f = e.rebind g ↔ Agree f g e.links := by
  cases e <;> simp [rebind, links]

@[simp]
theorem SetImplementation.rebind_eq_iff {s : SetImplementation} :
    s.rebind f = s.rebind g ↔ Agree f g s.links := by
  cases hk : s.kind with
  | pureInstance source filter properties =>
    cases source <;> simp [rebind, rebindKind, links, kindLinks, SetImplementation.properties, hk]
  | relational distinct table key properties =>
    cases table <;>
      simp [rebind, rebindKind, links, kindLinks, SetImplementation.properties, hk,
        TablePointer.rebind]
  | _ => simp [rebind, rebindKind, links, kindLinks, SetImplementation.properties, hk]

theorem Mapping.rebind_eq_iff {m : Mapping} : m.rebind f = m.rebind g ↔ Agree f g m.links := by
  simp [rebind, links, and_assoc, and_comm]

theorem Extension.rebind_eq_iff {e : Extension} : e.rebind f = e.rebind g ↔ Agree f g e.links := by
  cases e with
  | text t => simp [rebind, links]
  | diagram d => simp [rebind, links, Diagram.rebind, Diagram.links]
  | serviceStore s => simp [rebind, links, ServiceStore.rebind, ServiceStore.links]
  | schema s =>
    cases hs : s.store <;> simp [rebind, links, SerializerSchema.rebind, SerializerSchema.links, hs]
  | verbatim v => simp [rebind, links]

theorem Body.rebind_eq_iff {b : Body} : b.rebind f = b.rebind g ↔ Agree f g b.links := by
  cases b with
  | package children => simp [rebind, links]
  | primitiveType => simp [rebind, links]
  | profile p => simp [rebind, links]
  | enumeration e => simp [rebind, links, Enumeration.rebind_eq_iff]
  | «class» c => simp [rebind, links, Class.rebind_eq_iff]
  | association a => simp [rebind, links, Association.rebind_eq_iff]
  | function h => simp [rebind, links, Function.rebind_eq_iff]
  | database d => simp [rebind, links, Database.rebind_eq_iff]
  | mapping m => simp [rebind, links, Mapping.rebind_eq_iff]
  | connection c => simp [rebind, links]
  | runtime r => simp [rebind, links]
  | service s => simp [rebind, links, Service.rebind_eq_iff]
  | extension e => simp [rebind, links, Extension.rebind_eq_iff]

end Agree

end ModelGraph
