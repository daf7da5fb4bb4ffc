import ModelGraph.Proofs.WiredMappings

namespace ModelGraph

section Renumber

variable (φ : Handle → Handle)

def retarget : Rebinding := fun _ r => { r with target := r.target.map φ }

def SetHandle.renumber (s : SetHandle) : SetHandle := ⟨φ s.mapping, s.index⟩

def PropertyMapping.renumber (p : PropertyMapping) : PropertyMapping :=
  { p.rebind (retarget φ) with producer := p.producer.map (SetHandle.renumber φ) }

def OperationParameter.renumber (p : OperationParameter) : OperationParameter :=
  { p with producer := p.producer.map (SetHandle.renumber φ) }

def SetImplementationKind.renumber : SetImplementationKind → SetImplementationKind
  | .pureInstance source filter properties =>
    .pureInstance (source.map (retarget φ _)) filter (properties.map (·.renumber φ))
  | .relational distinct table key properties =>
    .relational distinct (table.map (·.rebind (retarget φ))) (key.map (·.rebind (retarget φ)))
      (properties.map (·.renumber φ))
  | .embedded properties => .embedded (properties.map (·.renumber φ))
  | .aggregationAware main aggregates properties =>
    .aggregationAware main aggregates (properties.map (·.renumber φ))
  | .operation o parameters => .operation o (parameters.map (·.renumber φ))
  | .extension e => .extension (e.rebind (retarget φ))

def SetImplementation.renumber (s : SetImplementation) : SetImplementation :=
  { s with target := retarget φ _ s.target, kind := s.kind.renumber φ }

def Mapping.renumber (m : Mapping) : Mapping :=
  { m.rebind (retarget φ) with slots := m.slots.map (SetImplementation.renumber φ) }

def Body.renumber : Body → Body
  | .package children => .package (children.map φ)
  | .mapping m => .mapping (m.renumber φ)
  | b => b.rebind (retarget φ)

def Link.renumber (l : Link) : Link := { l with target := l.target.map φ }

def Element.renumber (e : Element) : Element :=
  { e with package := e.package.map φ, body := e.body.renumber φ }

end Renumber

variable {φ : Handle → Handle}

/-- Two rebindings that do the same, before references are renumbered and after. -/
def Corresponds (φ : Handle → Handle) (f f' : Rebinding) : Prop :=
  ∀ F r, f' F (retarget φ F r) = retarget φ F (f F r)

theorem Corresponds.after_eq {f f' : Rebinding} (hf : Corresponds φ f f') :
    (retarget φ).after f = f'.after (retarget φ) := by
  funext F r
  exact (hf F r).symm

theorem PropertyMapping.renumber_rebind {f f' : Rebinding} (hf : Corresponds φ f f')
    (p : PropertyMapping) : (p.rebind f).renumber φ = (p.renumber φ).rebind f' := by
  rw [renumber, rebind_rebind, hf.after_eq, ← rebind_rebind]
  rfl

theorem PropertyMapping.embedded?_renumber (p : PropertyMapping) :
    (p.renumber φ).embedded? = p.embedded? := by
  cases hk : p.kind <;> simp [renumber, embedded?, rebind, hk]

namespace SetImplementation

variable (s : SetImplementation)

theorem properties_renumber :
    (s.renumber φ).properties = s.properties.map (PropertyMapping.renumber φ) := by
  cases hk : s.kind <;> simp [renumber, SetImplementationKind.renumber, properties, hk]

theorem parameters_renumber :
    (s.renumber φ).parameters = s.parameters.map (OperationParameter.renumber φ) := by
  cases hk : s.kind <;> simp [renumber, SetImplementationKind.renumber, parameters, hk]

theorem unwire_renumber : (s.renumber φ).unwire = s.unwire.rebind (retarget φ) := by
  have hproperty : ∀ p : PropertyMapping, ({ p.renumber φ with producer := none } : PropertyMapping)
      = PropertyMapping.rebind (retarget φ) { p with producer := none } := fun _ => rfl
  cases hk : s.kind <;>
    simp [renumber, SetImplementationKind.renumber, unwire, mapParameters, mapProperties, rebind,
      rebindKind, OperationParameter.renumber, hk, hproperty]

theorem slots_renumber : (s.renumber φ).slots = s.slots := by
  rw [← slots_unwire, unwire_renumber, slots_rebind, slots_unwire]

theorem renumber_rebind {f f' : Rebinding} (hf : Corresponds φ f f') :
    (s.rebind f).renumber φ = (s.renumber φ).rebind f' := by
  cases hk : s.kind <;>
    simp [renumber, SetImplementationKind.renumber, rebind, rebindKind, hk, Function.comp_def,
      hf.after_eq, PropertyMapping.renumber_rebind hf, ← hf _ _]

theorem renumber_mapped {f f' : PropertyMapping → PropertyMapping}
    {k k' : OperationParameter → OperationParameter}
    (hf : ∀ p, (f p).renumber φ = f' (p.renumber φ))
    (hk : ∀ p, (k p).renumber φ = k' (p.renumber φ)) :
    ((s.mapParameters k).mapProperties f).renumber φ =
      ((s.renumber φ).mapParameters k').mapProperties f' := by
  cases hs : s.kind <;>
    simp [renumber, SetImplementationKind.renumber, mapParameters, mapProperties, hs,
      Function.comp_def, hf, hk]

end SetImplementation

namespace Mapping

variable (m : Mapping)

theorem unwire_renumber : (m.renumber φ).unwire = m.unwire.rebind (retarget φ) := by
  simp [renumber, unwire, rebind, SetImplementation.unwire_renumber]

theorem slots_map_renumber :
    (m.renumber φ).slots.map SetImplementation.slots = m.slots.map SetImplementation.slots := by
  simp [renumber, SetImplementation.slots_renumber]

theorem named_renumber : (m.renumber φ).named = m.named := named_congr rfl m.slots_map_renumber

theorem ownClassMappings_renumber : (m.renumber φ).ownClassMappings = m.ownClassMappings := by
  have hlength : (m.renumber φ).slots.length = m.slots.length := List.length_map _
  simp only [ownClassMappings, hlength, collectEmbedded_congr m.slots_map_renumber]
  rfl

theorem renumber_rebind {f f' : Rebinding} (hf : Corresponds φ f f') :
    (m.rebind f).renumber φ = (m.renumber φ).rebind f' := by
  simp [renumber, rebind, Function.comp_def, hf.after_eq, SetImplementation.renumber_rebind _ hf,
    ← hf _ _]

theorem renumber_prune {isDead isDead' : Handle → Bool} (hd : ∀ h, isDead' (φ h) = isDead h) :
    (m.prune isDead).renumber φ = (m.renumber φ).prune isDead' := by
  simp [renumber, SetImplementation.renumber, prune, rebind, retarget, List.filter_map,
    Function.comp_def, Option.any_map, hd, EnumerationMapping.rebind]

end Mapping

theorem Runtime.renumber_prune {isDead isDead' : Handle → Bool} (hd : ∀ h, isDead' (φ h) = isDead h)
    (r : Runtime) :
    (r.prune isDead).rebind (retarget φ) = (r.rebind (retarget φ)).prune isDead' := by
  have hstore : ∀ s : ConnectionStore, (s.rebind (retarget φ)).target = s.target.map φ := by
    intro s
    cases s <;> rfl
  simp [prune, rebind, retarget, List.filter_map, Function.comp_def, Option.any_map, hd,
    StoreConnections.rebind, hstore]

namespace Body

theorem hull_unwire_renumber (b : Body) :
    (b.renumber φ).hull.unwire = b.hull.unwire.rebind (retarget φ) := by
  cases b with
  | mapping m => exact congrArg mapping m.unwire_renumber
  | _ => rfl

@[simp]
theorem kind_renumber (b : Body) : (b.renumber φ).kind = b.kind := by
  cases b <;> try rfl
  exact congrArg Kind.extension (Extension.kind_rebind _ _)

@[simp]
theorem children_renumber (b : Body) : (b.renumber φ).children = b.children.map φ := by
  cases b <;> rfl

theorem renumber_mapChildren {f f' : List Handle → List Handle}
    (hf : ∀ l, (f l).map φ = f' (l.map φ)) (b : Body) :
    (b.mapChildren f).renumber φ = (b.renumber φ).mapChildren f' := by
  cases b with
  | package children => exact congrArg package (hf children)
  | _ => rfl

theorem links_renumber (b : Body) : (b.renumber φ).links = b.links.map (Link.renumber φ) := by
  rw [← links_hull, ← links_unwire, hull_unwire_renumber, links_rebind, links_unwire, links_hull]
  rfl

@[simp]
theorem digest_renumber (path : Path) (b : Body) : (b.renumber φ).digest path = b.digest path := by
  have hplain : ∀ b : Body, b.hull.unwire.digest path = b.digest path := fun b =>
    (digest_of_unwire b.hull.unwire_unwire path).trans (digest_mapChildren _ path b)
  rw [← hplain, hull_unwire_renumber, digest_rebind (fun _ _ => rfl), hplain]

theorem entries_renumber (b : Body) : (b.renumber φ).entries = b.entries := by
  cases b with
  | «class» c => exact List.length_map _
  | database d => exact List.length_map _
  | mapping m => simp [renumber, entries, Mapping.renumber, Mapping.rebind, Mapping.entries]
  | runtime r => simp [renumber, rebind, entries, Runtime.rebind, Runtime.entries]
  | service s =>
    obtain ⟨pattern, documentation, owners, autoActivateUpdates, execution, annotations⟩ := s
    rcases execution with _ | ⟨function, mapping, _ | r⟩
    · rfl
    · rfl
    · simp [renumber, rebind, entries, Service.rebind, Service.entries, Execution.rebind,
        RuntimeValue.rebind, RuntimeValue.entries, Runtime.rebind, Runtime.entries]
  | _ => rfl

theorem renumber_rebind {f f' : Rebinding} (hf : Corresponds φ f f') (b : Body) :
    (b.rebind f).renumber φ = (b.renumber φ).rebind f' := by
  have hplain : (b.rebind f).rebind (retarget φ) = (b.rebind (retarget φ)).rebind f' := by
    rw [rebind_rebind, hf.after_eq, rebind_rebind]
  cases b with
  | package children => rfl
  | mapping m => exact congrArg mapping (m.renumber_rebind hf)
  | _ => exact hplain

theorem renumber_prune {isDead isDead' : Handle → Bool} (hd : ∀ h, isDead' (φ h) = isDead h)
    (b : Body) : (b.prune isDead).renumber φ = (b.renumber φ).prune isDead' := by
  cases b with
  | «class» c =>
    simp [prune, renumber, rebind, Class.rebind, retarget, List.filter_map, Function.comp_def,
      Option.any_map, hd]
  | database d =>
    simp [prune, renumber, rebind, Database.rebind, retarget, List.filter_map, Function.comp_def,
      Option.any_map, hd]
  | mapping m => exact congrArg mapping (m.renumber_prune hd)
  | runtime r => exact congrArg runtime (r.renumber_prune hd)
  | service s =>
    obtain ⟨pattern, documentation, owners, autoActivateUpdates, execution, annotations⟩ := s
    rcases execution with _ | ⟨function, mapping, _ | r⟩
    · rfl
    · rfl
    · simp [prune, renumber, rebind, Service.rebind, Service.prune, Execution.rebind,
        RuntimeValue.rebind, RuntimeValue.prune, r.renumber_prune hd]
  | _ => rfl

theorem class?_renumber (b : Body) :
    (b.renumber φ).class? = b.class?.map (Class.rebind (retarget φ)) := by
  cases b <;> rfl

theorem association?_renumber (b : Body) :
    (b.renumber φ).association? = b.association?.map (Association.rebind (retarget φ)) := by
  cases b <;> rfl

theorem mapping?_renumber (b : Body) :
    (b.renumber φ).mapping? = b.mapping?.map (Mapping.renumber φ) := by
  cases b <;> rfl

theorem hull_spelled_renumber {names names' : Naming} (hn : ∀ l, names' (l.renumber φ) = names l)
    (b : Body) : ((b.renumber φ).spelled names').hull = (b.spelled names).hull := by
  have hspell : (spell names').after (retarget φ) = spell names := by
    funext F r
    exact congrArg (fun p => (⟨p, none⟩ : Reference F)) (hn r.link)
  have hplain : ∀ (b : Body) names, (b.spelled names).hull = b.hull.unwire.spelled names := by
    intro b names
    rw [← Graph.spelled_hull, spelled_of_unwire b.hull.unwire_unwire]
  rw [hplain, hull_unwire_renumber, spelled, rebind_rebind, hspell, hplain]
  rfl

end Body

@[simp]
theorem Family.admits_renumber (F : Family) (b : Body) : F.admits (b.renumber φ) = F.admits b := by
  rw [← admits_hull, ← admits_unwire, Body.hull_unwire_renumber, admits_rebind, admits_unwire,
    admits_hull]

namespace Element

@[simp]
theorem kind_renumber (e : Element) : (e.renumber φ).kind = e.kind := Body.kind_renumber e.body

@[simp]
theorem isPackage_renumber (e : Element) : (e.renumber φ).isPackage = e.isPackage := by
  rw [isPackage, isPackage, kind_renumber]

@[simp]
theorem admits_renumber (F : Family) (e : Element) :
    F.admits (e.renumber φ).body = F.admits e.body :=
  F.admits_renumber e.body

theorem hash_renumber (e : Element) :
    (e.renumber φ).hash = e.hash.map fun given => (given.1, given.2.renumber φ) := by
  have hfault : (e.renumber φ).hashFault? = e.hashFault? := rfl
  have hmemo : (e.renumber φ).memo? = e.memo? := rfl
  have hfresh : (e.renumber φ).freshDigest = e.freshDigest := e.body.digest_renumber e.path
  rw [hash, hash, hfault, hmemo, hfresh]
  cases e.hashFault? with
  | some fault => rfl
  | none => cases e.memo? <;> rfl

theorem prune_renumber {isDead isDead' : Handle → Bool} (hd : ∀ h, isDead' (φ h) = isDead h)
    (e : Element) :
    (e.renumber φ).prune isDead' = ((e.prune isDead).1.renumber φ, (e.prune isDead).2) := by
  have hbody : (e.renumber φ).body.prune isDead' = (e.body.prune isDead).renumber φ :=
    (e.body.renumber_prune hd).symm
  have hentries : (e.renumber φ).body.entries = e.body.entries := e.body.entries_renumber
  simp only [prune, hbody, hentries, Body.entries_renumber]
  split <;> rfl

end Element

end ModelGraph
