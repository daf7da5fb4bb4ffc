import ModelGraph.Body

namespace ModelGraph

inductive Annotations.Holds (a : Annotations) : Link → Prop
  | stereotype {s : Stereotype} : s ∈ a.stereotypes → a.Holds s.profile.link
  | taggedValue {t : TaggedValue} : t ∈ a.taggedValues → a.Holds t.profile.link

inductive Property.Holds (p : Property) : Link → Prop
  | type : p.Holds p.type.link
  | annotation {l : Link} : p.annotations.Holds l → p.Holds l

inductive DerivedProperty.Holds (p : DerivedProperty) : Link → Prop
  | type : p.Holds p.returnType.link
  | annotation {l : Link} : p.annotations.Holds l → p.Holds l

inductive Class.Holds (c : Class) : Link → Prop
  | superType {r : Reference .class} : r ∈ c.superTypes → c.Holds r.link
  | property {p : Property} {l : Link} : p ∈ c.properties → p.Holds l → c.Holds l
  | derivedProperty {p : DerivedProperty} {l : Link} : p ∈ c.derivedProperties → p.Holds l → c.Holds l
  | annotation {l : Link} : c.annotations.Holds l → c.Holds l

inductive Association.Holds (a : Association) : Link → Prop
  | property {p : Property} {l : Link} : p ∈ a.properties → p.Holds l → a.Holds l
  | derivedProperty {p : DerivedProperty} {l : Link} : p ∈ a.derivedProperties → p.Holds l → a.Holds l
  | annotation {l : Link} : a.annotations.Holds l → a.Holds l

inductive Enumeration.Holds (e : Enumeration) : Link → Prop
  | value {v : EnumValue} {l : Link} : v ∈ e.values → v.annotations.Holds l → e.Holds l
  | annotation {l : Link} : e.annotations.Holds l → e.Holds l

inductive Function.Holds (f : Function) : Link → Prop
  | parameter {p : Parameter} : p ∈ f.parameters → f.Holds p.type.link
  | returnType : f.Holds f.returnType.link
  | annotation {l : Link} : f.annotations.Holds l → f.Holds l

inductive RelationalOperation.Holds : RelationalOperation → Link → Prop
  | table {t : TablePointer} {tableAlias name : String} :
      Holds (.column t tableAlias name) t.database.link
  | parameter {name : String} {parameters : List RelationalOperation} {o : RelationalOperation}
      {l : Link} : o ∈ parameters → Holds o l → Holds (.call name parameters) l
  | join {joins : List JoinPointer} {element : Option RelationalOperation} {j : JoinPointer} :
      j ∈ joins → Holds (.joined joins element) j.database.link
  | element {joins : List JoinPointer} {o : RelationalOperation} {l : Link} :
      Holds o l → Holds (.joined joins (some o)) l

inductive Database.Holds (d : Database) : Link → Prop
  | included {r : Reference .store} : r ∈ d.includes → d.Holds r.link
  | join {j : Join} {l : Link} : j ∈ d.joins → j.operation.Holds l → d.Holds l

inductive ConnectionStore.Holds : ConnectionStore → Link → Prop
  | store {r : Reference .store} : Holds (.store r) r.link

inductive Connection.Holds (c : Connection) : Link → Prop
  | store {s : ConnectionStore} {l : Link} : c.store = some s → s.Holds l → c.Holds l

inductive ConnectionValue.Holds : ConnectionValue → Link → Prop
  | pointer {r : Reference .connection} : Holds (.pointer r) r.link
  | embedded {c : Connection} {l : Link} : c.Holds l → Holds (.embedded c) l

inductive StoreConnections.Holds (g : StoreConnections) : Link → Prop
  | store {l : Link} : g.store.Holds l → g.Holds l
  | connection {c : IdentifiedConnection} {l : Link} :
      c ∈ g.connections → c.connection.Holds l → g.Holds l

inductive Runtime.Holds (r : Runtime) : Link → Prop
  | mapping {m : Reference .mapping} : m ∈ r.mappings → r.Holds m.link
  | connections {g : StoreConnections} {l : Link} : g ∈ r.connections → g.Holds l → r.Holds l

inductive RuntimeValue.Holds : RuntimeValue → Link → Prop
  | pointer {r : Reference .runtime} : Holds (.pointer r) r.link
  | embedded {r : Runtime} {l : Link} : r.Holds l → Holds (.embedded r) l

inductive Service.Holds (s : Service) : Link → Prop
  | mapping {e : Execution} : s.execution = some e → s.Holds e.mapping.link
  | runtime {e : Execution} {l : Link} : s.execution = some e → e.runtime.Holds l → s.Holds l
  | annotation {l : Link} : s.annotations.Holds l → s.Holds l

inductive EnumerationMapping.Holds (m : EnumerationMapping) : Link → Prop
  | enumeration : m.Holds m.enumeration.link
  | source {v : EnumValueMapping} {r : Reference .enumeration} {value : String} :
      v ∈ m.values → .enumValue r value ∈ v.sources → m.Holds r.link

inductive PropertyMapping.Holds (p : PropertyMapping) : Link → Prop
  | owner : p.Holds p.owner.link
  | operation {o : RelationalOperation} {l : Link} : p.kind = .relational o → o.Holds l → p.Holds l

inductive Verbatim.Holds (v : Verbatim) : Link → Prop
  | class_ {r : Reference .class} : r ∈ v.classes → v.Holds r.link

inductive ClassMappingExtension.Holds : ClassMappingExtension → Link → Prop
  | service {pointers : List ServicePointer} {p : ServicePointer} :
      p ∈ pointers → Holds (.services pointers) p.store.link
  | verbatim {v : Verbatim} {l : Link} : v.Holds l → Holds (.verbatim v) l

inductive SetImplementationKind.Holds : SetImplementationKind → Link → Prop
  | source {r : Reference .class} {filter : Option Json} {properties : List PropertyMapping} :
      Holds (.pureInstance (some r) filter properties) r.link
  | mainTable {distinct : Bool} {t : TablePointer} {key : List RelationalOperation}
      {properties : List PropertyMapping} :
      Holds (.relational distinct (some t) key properties) t.database.link
  | primaryKey {distinct : Bool} {table : Option TablePointer} {key : List RelationalOperation}
      {properties : List PropertyMapping} {o : RelationalOperation} {l : Link} :
      o ∈ key → o.Holds l → Holds (.relational distinct table key properties) l
  | extension {e : ClassMappingExtension} {l : Link} : e.Holds l → Holds (.extension e) l

inductive SetImplementation.Holds (s : SetImplementation) : Link → Prop
  | target : s.Holds s.target.link
  | kind {l : Link} : s.kind.Holds l → s.Holds l
  | property {p : PropertyMapping} {l : Link} : p ∈ s.properties → p.Holds l → s.Holds l

/-- All slots count, those that are no longer reached from the top too. -/
inductive Mapping.Holds (m : Mapping) : Link → Prop
  | included {r : Reference .mapping} : r ∈ m.includes → m.Holds r.link
  | slot {s : SetImplementation} {l : Link} : s ∈ m.slots → s.Holds l → m.Holds l
  | enumerationMapping {e : EnumerationMapping} {l : Link} :
      e ∈ m.enumerationMappings → e.Holds l → m.Holds l

inductive SerializerSchema.Holds (s : SerializerSchema) : Link → Prop
  | store {r : Reference .store} : s.store = some r → s.Holds r.link
  | root : s.Holds s.root.link
  | included {r : Reference .class} : r ∈ s.included → s.Holds r.link
  | fieldName {n : FieldName} : n ∈ s.fieldNames → s.Holds n.owner.link

inductive Extension.Holds : Extension → Link → Prop
  | view {d : Diagram} {v : ClassView} : v ∈ d.views → Holds (.diagram d) v.shown.link
  | included {s : ServiceStore} {r : Reference .store} :
      r ∈ s.includes → Holds (.serviceStore s) r.link
  | schema {s : SerializerSchema} {l : Link} : s.Holds l → Holds (.schema s) l
  | verbatim {v : Verbatim} {l : Link} : v.Holds l → Holds (.verbatim v) l

/-- A reference stands somewhere in a body. -/
inductive Body.Holds : Body → Link → Prop
  | enumeration {e : Enumeration} {l : Link} : e.Holds l → Holds (.enumeration e) l
  | class_ {c : Class} {l : Link} : c.Holds l → Holds (.class c) l
  | association {a : Association} {l : Link} : a.Holds l → Holds (.association a) l
  | function {f : Function} {l : Link} : f.Holds l → Holds (.function f) l
  | database {d : Database} {l : Link} : d.Holds l → Holds (.database d) l
  | mapping {m : Mapping} {l : Link} : m.Holds l → Holds (.mapping m) l
  | connection {c : Connection} {l : Link} : c.Holds l → Holds (.connection c) l
  | runtime {r : Runtime} {l : Link} : r.Holds l → Holds (.runtime r) l
  | service {s : Service} {l : Link} : s.Holds l → Holds (.service s) l
  | extension {e : Extension} {l : Link} : e.Holds l → Holds (.extension e) l

variable {l : Link}

theorem Annotations.Holds.mem_links {a : Annotations} (h : a.Holds l) : l ∈ a.links := by
  cases h with
  | stereotype hs => exact List.mem_append_left _ (List.mem_map.mpr ⟨_, hs, rfl⟩)
  | taggedValue ht => exact List.mem_append_right _ (List.mem_map.mpr ⟨_, ht, rfl⟩)

theorem Property.Holds.mem_links {p : Property} (h : p.Holds l) : l ∈ p.links := by
  cases h with
  | type => exact List.mem_cons_self
  | annotation ha => exact List.mem_cons_of_mem _ ha.mem_links

theorem DerivedProperty.Holds.mem_links {p : DerivedProperty} (h : p.Holds l) : l ∈ p.links := by
  cases h with
  | type => exact List.mem_cons_self
  | annotation ha => exact List.mem_cons_of_mem _ ha.mem_links

theorem Class.Holds.mem_links {c : Class} (h : c.Holds l) : l ∈ c.links := by
  simp only [links, List.mem_append, List.mem_map, List.mem_flatMap]
  cases h with
  | superType hr => exact .inl (.inl (.inl ⟨_, hr, rfl⟩))
  | property hp hl => exact .inl (.inl (.inr ⟨_, hp, hl.mem_links⟩))
  | derivedProperty hp hl => exact .inl (.inr ⟨_, hp, hl.mem_links⟩)
  | annotation ha => exact .inr ha.mem_links

theorem Association.Holds.mem_links {a : Association} (h : a.Holds l) : l ∈ a.links := by
  simp only [links, List.mem_append, List.mem_flatMap]
  cases h with
  | property hp hl => exact .inl (.inl ⟨_, hp, hl.mem_links⟩)
  | derivedProperty hp hl => exact .inl (.inr ⟨_, hp, hl.mem_links⟩)
  | annotation ha => exact .inr ha.mem_links

theorem Enumeration.Holds.mem_links {e : Enumeration} (h : e.Holds l) : l ∈ e.links := by
  simp only [links, List.mem_append, List.mem_flatMap]
  cases h with
  | value hv hl => exact .inr ⟨_, hv, hl.mem_links⟩
  | annotation ha => exact .inl ha.mem_links

theorem Function.Holds.mem_links {f : Function} (h : f.Holds l) : l ∈ f.links := by
  simp only [links, List.mem_cons, List.mem_append, List.mem_map]
  cases h with
  | parameter hp => exact .inr (.inl ⟨_, hp, rfl⟩)
  | returnType => exact .inl rfl
  | annotation ha => exact .inr (.inr ha.mem_links)

theorem RelationalOperation.mem_linksOf {o : RelationalOperation} {os : List RelationalOperation}
    (ho : o ∈ os) (hl : l ∈ o.links) : l ∈ linksOf os := by
  induction os with
  | nil => cases ho
  | cons p os ih =>
    rw [linksOf, List.mem_append]
    rcases List.mem_cons.mp ho with rfl | ho
    · exact .inl hl
    · exact .inr (ih ho)

theorem RelationalOperation.Holds.mem_links {o : RelationalOperation} (h : o.Holds l) :
    l ∈ o.links := by
  induction h with
  | table => exact List.mem_cons_self
  | parameter ho _ ih =>
    rw [links]
    exact mem_linksOf ho ih
  | @join joins element j hj =>
    have hm : j.database.link ∈ joins.map (·.database.link) := List.mem_map.mpr ⟨j, hj, rfl⟩
    cases element with
    | none =>
      rw [links]
      exact hm
    | some o =>
      rw [links]
      exact List.mem_append_left _ hm
  | element _ ih =>
    rw [links]
    exact List.mem_append_right _ ih

theorem Database.Holds.mem_links {d : Database} (h : d.Holds l) : l ∈ d.links := by
  simp only [links, List.mem_append, List.mem_map, List.mem_flatMap]
  cases h with
  | included hr => exact .inl ⟨_, hr, rfl⟩
  | join hj hl => exact .inr ⟨_, hj, hl.mem_links⟩

theorem ConnectionStore.Holds.mem_links {s : ConnectionStore} (h : s.Holds l) : l ∈ s.links := by
  cases h with
  | store => exact List.mem_cons_self

theorem Connection.Holds.mem_links {c : Connection} (h : c.Holds l) : l ∈ c.links := by
  cases h with
  | store hs hl =>
    rw [links, hs]
    exact hl.mem_links

theorem ConnectionValue.Holds.mem_links {c : ConnectionValue} (h : c.Holds l) : l ∈ c.links := by
  cases h with
  | pointer => exact List.mem_cons_self
  | embedded hl => exact hl.mem_links

theorem StoreConnections.Holds.mem_links {g : StoreConnections} (h : g.Holds l) : l ∈ g.links := by
  simp only [links, List.mem_append, List.mem_flatMap]
  cases h with
  | store hl => exact .inl hl.mem_links
  | connection hc hl => exact .inr ⟨_, hc, hl.mem_links⟩

theorem Runtime.Holds.mem_links {r : Runtime} (h : r.Holds l) : l ∈ r.links := by
  simp only [links, List.mem_append, List.mem_map, List.mem_flatMap]
  cases h with
  | mapping hm => exact .inl ⟨_, hm, rfl⟩
  | connections hg hl => exact .inr ⟨_, hg, hl.mem_links⟩

theorem RuntimeValue.Holds.mem_links {r : RuntimeValue} (h : r.Holds l) : l ∈ r.links := by
  cases h with
  | pointer => exact List.mem_cons_self
  | embedded hl => exact hl.mem_links

theorem Service.Holds.mem_links {s : Service} (h : s.Holds l) : l ∈ s.links := by
  cases h with
  | mapping he =>
    simp only [links, he]
    exact List.mem_append_left _ List.mem_cons_self
  | runtime he hl =>
    simp only [links, he]
    exact List.mem_append_left _ (List.mem_cons_of_mem _ hl.mem_links)
  | annotation ha => exact List.mem_append_right _ ha.mem_links

theorem EnumerationMapping.Holds.mem_links {m : EnumerationMapping} (h : m.Holds l) :
    l ∈ m.links := by
  cases h with
  | enumeration => exact List.mem_cons_self
  | source hv hs =>
    refine List.mem_cons_of_mem _ (List.mem_flatMap.mpr ⟨_, hv, List.mem_flatMap.mpr ⟨_, hs, ?_⟩⟩)
    exact List.mem_cons_self

theorem PropertyMapping.Holds.mem_links {p : PropertyMapping} (h : p.Holds l) : l ∈ p.links := by
  unfold links
  cases h with
  | owner => split <;> exact List.mem_cons_self
  | operation hk hl =>
    simp only [hk]
    exact List.mem_cons_of_mem _ hl.mem_links

theorem Verbatim.Holds.mem_links {v : Verbatim} (h : v.Holds l) : l ∈ v.links := by
  cases h with
  | class_ hr => exact List.mem_map.mpr ⟨_, hr, rfl⟩

theorem ClassMappingExtension.Holds.mem_links {e : ClassMappingExtension} (h : e.Holds l) :
    l ∈ e.links := by
  cases h with
  | service hp => exact List.mem_map.mpr ⟨_, hp, rfl⟩
  | verbatim hl => exact hl.mem_links

theorem SetImplementationKind.Holds.mem_links {k : SetImplementationKind} (h : k.Holds l) :
    l ∈ SetImplementation.kindLinks k := by
  cases h with
  | source => exact List.mem_cons_self
  | mainTable => exact List.mem_append_left _ List.mem_cons_self
  | primaryKey ho hl => exact List.mem_append_right _ (List.mem_flatMap.mpr ⟨_, ho, hl.mem_links⟩)
  | extension hl => exact hl.mem_links

theorem SetImplementation.Holds.mem_links {s : SetImplementation} (h : s.Holds l) : l ∈ s.links := by
  simp only [links, List.mem_cons, List.mem_append, List.mem_flatMap]
  cases h with
  | target => exact .inl rfl
  | kind hk => exact .inr (.inl hk.mem_links)
  | property hp hl => exact .inr (.inr ⟨_, hp, hl.mem_links⟩)

theorem Mapping.Holds.mem_links {m : Mapping} (h : m.Holds l) : l ∈ m.links := by
  simp only [links, List.mem_append, List.mem_map, List.mem_flatMap]
  cases h with
  | included hr => exact .inl (.inl ⟨_, hr, rfl⟩)
  | slot hs hl => exact .inl (.inr ⟨_, hs, hl.mem_links⟩)
  | enumerationMapping he hl => exact .inr ⟨_, he, hl.mem_links⟩

theorem SerializerSchema.Holds.mem_links {s : SerializerSchema} (h : s.Holds l) : l ∈ s.links := by
  simp only [links, List.mem_append, List.mem_cons, List.mem_map]
  cases h with
  | store hs =>
    simp only [hs]
    exact .inl List.mem_cons_self
  | root => exact .inr (.inl rfl)
  | included hr => exact .inr (.inr (.inl ⟨_, hr, rfl⟩))
  | fieldName hn => exact .inr (.inr (.inr ⟨_, hn, rfl⟩))

theorem Extension.Holds.mem_links {e : Extension} (h : e.Holds l) : l ∈ e.links := by
  cases h with
  | view hv => exact List.mem_map.mpr ⟨_, hv, rfl⟩
  | included hr => exact List.mem_map.mpr ⟨_, hr, rfl⟩
  | schema hl => exact hl.mem_links
  | verbatim hl => exact hl.mem_links

theorem Body.Holds.mem_links {b : Body} (h : b.Holds l) : l ∈ b.links := by
  cases h with
  | enumeration hl => exact hl.mem_links
  | class_ hl => exact hl.mem_links
  | association hl => exact hl.mem_links
  | function hl => exact hl.mem_links
  | database hl => exact hl.mem_links
  | mapping hl => exact hl.mem_links
  | connection hl => exact hl.mem_links
  | runtime hl => exact hl.mem_links
  | service hl => exact hl.mem_links
  | extension hl => exact hl.mem_links

end ModelGraph
