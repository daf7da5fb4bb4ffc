import ModelGraph.Proofs.RenumberedGraphs

namespace ModelGraph.Graph

variable {r : Registry} {φ : Handle → Handle} {k : Nat} {g g' : Graph}

theorem subset_searchProperty (g : Graph) (name : String) (fuel : Nat) :
    ∀ (h : Handle) (visited : List Handle),
      visited ⊆ (g.searchProperty name fuel h visited).2 := by
  induction fuel with
  | zero => exact fun h visited => List.Subset.refl _
  | succ fuel ih =>
    intro h visited
    by_cases hv : visited.contains h = true
    · rw [searchProperty_visited hv]
      exact List.Subset.refl _
    · have happend : visited ⊆ visited ++ [h] := List.subset_append_left _ _
      cases hc : (g.body? h).bind Body.class? with
      | none =>
        rw [searchProperty_none hv hc]
        exact happend
      | some c =>
        cases hp : c.findProperty name with
        | some p =>
          rw [searchProperty_own hv hc hp]
          exact happend
        | none =>
          rw [searchProperty_inherited hv hc hp]
          refine List.foldlRecOn (motive := fun s : Option Property × List Handle => visited ⊆ s.2)
            _ _ happend fun s hs superType _ => ?_
          obtain ⟨found, seen⟩ := s
          cases found with
          | some p => exact hs
          | none => exact List.Subset.trans hs (ih superType seen)

theorem fault?_map {α β : Type} (f : α → β) (r : Except GraphError α) :
    fault? (r.map f) = fault? r := by
  cases r <;> rfl

namespace Renumbered

section LookUps

variable (m : Renumbered r φ k g g')
include m

theorem contains_map (l : List Handle) (h : Handle) : (l.map φ).contains (φ h) = l.contains h :=
  contains_map_of_beq m.beq_eq l h

theorem pointsTo {F : Family} (r : Reference F) (h : Handle) :
    (retarget φ F r).pointsTo (φ h) = r.pointsTo h := by
  cases ht : r.target with
  | none => simp [Reference.pointsTo, retarget, ht]
  | some i => simp [Reference.pointsTo, retarget, ht, m.beq_eq]

theorem mapping? (h : Handle) : g'.mapping? (φ h) = (g.mapping? h).map (Mapping.renumber φ) := by
  rw [mapping?_eq, mapping?_eq, m.body?]
  cases g.body? h with
  | none => rfl
  | some b => exact b.mapping?_renumber

theorem includes (h : Handle) : g'.includes (φ h) = (g.includes h).map φ := by
  rw [Graph.includes, Graph.includes, m.mapping?]
  cases g.mapping? h with
  | none => rfl
  | some n =>
    simp only [Option.map_some, Mapping.renumber, Mapping.rebind, List.filterMap_map,
      List.map_filterMap]
    rfl

theorem openIncludes (h : Handle) : g'.openIncludes (φ h) = (g.openIncludes h).map φ := by
  rw [Graph.openIncludes, Graph.openIncludes, m.includes, List.filter_map]
  simp only [Function.comp_def, m.isDeleted]

/-- With fuel for all elements that have not been visited, the searches in both graphs visit the
same mappings. -/
theorem collectIncludes {fuel : Nat} {h : Handle} {visited : List Handle}
    (hf : g.includes h ≠ [] → g.unvisited visited < fuel) :
    g'.collectIncludes (fuel + k) (φ h) (visited.map φ) =
      (g.collectIncludes fuel h visited).map φ := by
  induction fuel generalizing h visited with
  | zero =>
    have hi : g.includes h = [] := not_not.mp fun hi => Nat.not_lt_zero _ (hf hi)
    have hi' : g'.includes (φ h) = [] := by rw [m.includes, hi, List.map_nil]
    rw [collectIncludes_of_includes hi, collectIncludes_of_includes hi']
  | succ fuel ih =>
    by_cases hi : g.includes h = []
    · have hi' : g'.includes (φ h) = [] := by rw [m.includes, hi, List.map_nil]
      rw [collectIncludes_of_includes hi, collectIncludes_of_includes hi']
    rw [Nat.add_right_comm, collectIncludes_succ, collectIncludes_succ, m.openIncludes,
      List.foldl_map]
    have hstep : ∀ n ∈ g.openIncludes h, ∀ seen seen' : List Handle,
        seen' = seen.map φ ∧ g.unvisited seen < fuel + 1 →
          g'.collectNext (fuel + k) seen' (φ n) = (g.collectNext fuel seen n).map φ ∧
            g.unvisited (g.collectNext fuel seen n) < fuel + 1 := by
      rintro n - seen _ ⟨rfl, hlt⟩
      rw [collectNext, collectNext, m.contains_map]
      split
      next hc => exact ⟨rfl, hlt⟩
      next hc =>
        have happend : seen.map φ ++ [φ n] = (seen ++ [n]).map φ := by
          rw [List.map_append, List.map_singleton]
        have hfresh : g.includes n ≠ [] → g.unvisited (seen ++ [n]) < fuel := by
          intro hne
          cases he : g.element? n with
          | none => exact absurd (includes_of_element?_none he) hne
          | some e =>
            have hless : g.unvisited (seen ++ [n]) < g.unvisited seen :=
              unvisited_append_lt (slot_lt_of_element? he) (by simpa using hc)
            omega
        have hkept := (closes_collectIncludes hfresh).1.kept.subset
        have hless := unvisited_anti (g := g)
          (List.Subset.trans (List.subset_append_left seen [n]) hkept)
        refine ⟨?_, by omega⟩
        rw [happend]
        exact ih hfresh
    exact (List.foldl_rel (r := fun seen seen' => seen' = seen.map φ ∧ g.unvisited seen < fuel + 1)
      ⟨rfl, hf hi⟩ hstep).1

theorem sources (h : Handle) : g'.sources (φ h) = (g.sources h).map φ := by
  have hc : g'.collectIncludes (g.fuel + k) (φ h) [φ h] = (g.collectIncludes g.fuel h [h]).map φ :=
    m.collectIncludes fun _ => g.unvisited_lt_fuel [h]
  rw [Graph.sources, Graph.sources, includedMappings, includedMappings, m.fuel_eq, hc,
    List.map_cons, List.map_drop]

theorem setImplementation? (s : SetHandle) : g'.setImplementation? (s.renumber φ) =
    (g.setImplementation? s).map (SetImplementation.renumber φ) := by
  rw [Graph.setImplementation?, Graph.setImplementation?, SetHandle.renumber, m.mapping?]
  cases g.mapping? s.mapping with
  | none => rfl
  | some n => exact List.getElem?_map

theorem any_setImplementation? {test test' : SetImplementation → Bool}
    (ht : ∀ s, test' (s.renumber φ) = test s) (s : SetHandle) :
    (g'.setImplementation? (s.renumber φ)).any test' = (g.setImplementation? s).any test := by
  rw [m.setImplementation?, Option.any_map]
  exact congrArg (Option.any · _) (funext ht)

theorem handlesOf {slots : Mapping → List Nat} (hs : ∀ n, slots (n.renumber φ) = slots n)
    (h : Handle) : g'.handlesOf slots (φ h) = (g.handlesOf slots h).map (SetHandle.renumber φ) := by
  rw [Graph.handlesOf, Graph.handlesOf, m.mapping?]
  cases g.mapping? h with
  | none => rfl
  | some n =>
    simp only [Option.map_some, Option.elim_some, hs, List.map_map]
    rfl

theorem flatMap_sources {slots : Mapping → List Nat} (hs : ∀ n, slots (n.renumber φ) = slots n)
    (h : Handle) : (g'.sources (φ h)).flatMap (g'.handlesOf slots) =
      ((g.sources h).flatMap (g.handlesOf slots)).map (SetHandle.renumber φ) := by
  rw [m.sources, List.flatMap_map, List.map_flatMap]
  exact congrArg (List.flatMap · _) (funext (m.handlesOf hs))

theorem classMappingById (h : Handle) (id : String) : g'.classMappingById (φ h) id =
    (g.classMappingById h id).map (SetHandle.renumber φ) := by
  have htest : ∀ s, (g'.setImplementation? (s.renumber φ)).any (·.id.value == id) =
      (g.setImplementation? s).any (·.id.value == id) :=
    m.any_setImplementation? fun _ => rfl
  rw [Graph.classMappingById, Graph.classMappingById, Graph.namedClassMappings_eq,
    Graph.namedClassMappings_eq, m.flatMap_sources Mapping.named_renumber, List.find?_map, m.pathOf]
  simp only [Function.comp_def, htest]
  cases ((g.sources h).flatMap (g.handlesOf Mapping.named)).find? fun s =>
    (g.setImplementation? s).any (·.id.value == id) <;> rfl

theorem allClassMappings (h : Handle) :
    g'.allClassMappings (φ h) = (g.allClassMappings h).map (SetHandle.renumber φ) := by
  have hbeq : ∀ s t : SetHandle, (s.renumber φ == t.renumber φ) = (s == t) := by
    rintro ⟨h, i⟩ ⟨h', i'⟩
    rw [Bool.eq_iff_iff]
    simp [SetHandle.renumber, m.eq_iff]
  rw [Graph.allClassMappings, Graph.allClassMappings, Graph.ownClassMappings_eq,
    Graph.ownClassMappings_eq, m.flatMap_sources Mapping.ownClassMappings_renumber, List.foldl_map]
  refine List.foldl_rel
    (r := fun (found found' : List SetHandle) => found' = found.map (SetHandle.renumber φ)) rfl ?_
  rintro s - found _ rfl
  rw [contains_map_of_beq hbeq]
  split
  · rfl
  · rw [List.map_append, List.map_singleton]

theorem classMappingsByClass (h c : Handle) : g'.classMappingsByClass (φ h) (φ c) =
    (g.classMappingsByClass h c).map (SetHandle.renumber φ) := by
  have htest : ∀ s, (g'.setImplementation? (s.renumber φ)).any (·.target.pointsTo (φ c)) =
      (g.setImplementation? s).any (·.target.pointsTo c) :=
    m.any_setImplementation? fun s => m.pointsTo s.target c
  rw [Graph.classMappingsByClass, Graph.classMappingsByClass, m.allClassMappings, List.filter_map]
  exact congrArg _ (List.filter_congr fun s _ => htest s)

theorem defaultClassMapping (h c : Handle) : g'.defaultClassMapping (φ h) (φ c) =
    (g.defaultClassMapping h c).map (SetHandle.renumber φ) := by
  have htest : ∀ s, (g'.setImplementation? (s.renumber φ)).any (·.root) =
      (g.setImplementation? s).any (·.root) :=
    m.any_setImplementation? fun _ => rfl
  simp only [Graph.defaultClassMapping, m.classMappingsByClass, List.find?_map, List.head?_map,
    Function.comp_def, htest, Option.map_or]

variable {name : String}

theorem given (a : Association) (h : Handle) : (a.rebind (retarget φ)).given (φ h) name =
    (a.given h name).map (Property.rebind (retarget φ)) := by
  rw [Association.given, Association.given, a.findProperty_rebind, a.opposite_rebind]
  cases a.findProperty name with
  | none => rfl
  | some p =>
    cases a.opposite name with
    | none => rfl
    | some q =>
      change (if (retarget φ _ q.type).pointsTo (φ h) = true then some (p.rebind (retarget φ))
        else none) = (if q.type.pointsTo h = true then some p else none).map _
      rw [m.pointsTo]
      split <;> rfl

theorem handles (kind : Kind) : g'.handles kind = (g.handles kind).map φ := by
  rw [Graph.handles, Graph.handles, m.roster, List.filter_map, List.map_map, List.map_map]
  rfl

theorem class? (h : Handle) : (g'.body? (φ h)).bind Body.class? =
    ((g.body? h).bind Body.class?).map (Class.rebind (retarget φ)) := by
  rw [m.body?]
  cases g.body? h with
  | none => rfl
  | some b => exact b.class?_renumber

theorem association? (h : Handle) : (g'.body? (φ h)).bind Body.association? =
    ((g.body? h).bind Body.association?).map (Association.rebind (retarget φ)) := by
  rw [m.body?]
  cases g.body? h with
  | none => rfl
  | some b => exact b.association?_renumber

theorem associationProperty (h : Handle) : g'.associationProperty (φ h) name =
    (g.associationProperty h name).map (Property.rebind (retarget φ)) := by
  rw [associationProperty_eq, associationProperty_eq, m.handles]
  induction g.handles .association with
  | nil => rfl
  | cons i is ih =>
    have hat : (((g'.body? (φ i)).bind Body.association?).bind fun a => a.given (φ h) name) =
        (((g.body? i).bind Body.association?).bind fun a => a.given h name).map
          (Property.rebind (retarget φ)) := by
      rw [m.association?]
      cases (g.body? i).bind Body.association? with
      | none => rfl
      | some a => exact m.given a h
    rw [List.map_cons, List.findSome?_cons, List.findSome?_cons, ih, hat]
    cases ((g.body? i).bind Body.association?).bind fun a => a.given h name <;> rfl

/-- With fuel for all elements that have not been visited, the searches in both graphs find the same
property, after the same classes. -/
theorem searchProperty {fuel : Nat} {h : Handle} {visited : List Handle}
    (hf : g.unvisited visited < fuel) :
    g'.searchProperty name (fuel + k) (φ h) (visited.map φ) =
      (g.searchProperty name fuel h visited).map (Option.map (Property.rebind (retarget φ)))
        (List.map φ) := by
  induction fuel generalizing h visited with
  | zero => exact absurd hf (Nat.not_lt_zero _)
  | succ fuel ih =>
    rw [Nat.add_right_comm]
    have hcontains := m.contains_map visited h
    have happend : visited.map φ ++ [φ h] = (visited ++ [h]).map φ := by
      rw [List.map_append, List.map_singleton]
    have hclass := m.class? h
    by_cases hv : visited.contains h = true
    · rw [searchProperty_visited hv, searchProperty_visited (hcontains.trans hv)]
      rfl
    · have hv' : ¬(visited.map φ).contains (φ h) = true := hcontains ▸ hv
      cases hc : (g.body? h).bind Body.class? with
      | none =>
        rw [hc] at hclass
        rw [searchProperty_none hv hc, searchProperty_none hv' hclass, happend]
        rfl
      | some c =>
        rw [hc] at hclass
        have hproperty := c.findProperty_rebind (retarget φ) name
        cases hp : c.findProperty name with
        | some p =>
          rw [hp] at hproperty
          rw [searchProperty_own hv hc hp, searchProperty_own hv' hclass hproperty, happend]
          rfl
        | none =>
          rw [hp] at hproperty
          have hless : g.unvisited (visited ++ [h]) < fuel := by
            obtain ⟨e, he, -⟩ := Option.map_eq_some_iff.mp (body?_of_class? hc)
            have := unvisited_append_lt (slot_lt_of_element? he) (by simpa using hv)
            omega
          have hsuper : (c.rebind (retarget φ)).superTypes.filterMap Reference.target =
              (c.superTypes.filterMap Reference.target).map φ := by
            simp only [Class.rebind, List.filterMap_map, List.map_filterMap]
            rfl
          have hall :
              g'.searchAll name (fuel + k) (c.rebind (retarget φ)) ((visited ++ [h]).map φ) =
              (g.searchAll name fuel c (visited ++ [h])).map
                (Option.map (Property.rebind (retarget φ))) (List.map φ) := by
            rw [searchAll, searchAll, hsuper, List.foldl_map]
            refine (List.foldl_rel (r := fun (s s' : Option Property × List Handle) =>
              s' = s.map (Option.map (Property.rebind (retarget φ))) (List.map φ) ∧
                g.unvisited s.2 < fuel) (a := (none, visited ++ [h])) ⟨rfl, hless⟩ ?_).1
            rintro superType - ⟨found, seen⟩ _ ⟨rfl, hlt⟩
            cases found with
            | some p => exact ⟨rfl, hlt⟩
            | none =>
              have hsubset := g.subset_searchProperty name fuel superType seen
              exact ⟨ih hlt, Nat.lt_of_le_of_lt (unvisited_anti hsubset) hlt⟩
          rw [searchProperty_inherited hv hc hp, searchProperty_inherited hv' hclass hproperty,
            happend, hall, m.associationProperty]
          simp only [Prod.map_fst, Prod.map_snd, Prod.map_apply, Option.map_or]

theorem findProperty (h : Handle) : g'.findProperty (φ h) name =
    (g.findProperty h name).map (Property.rebind (retarget φ)) := by
  have hsearch : g'.searchProperty name (g.fuel + k) (φ h) [] =
      (g.searchProperty name g.fuel h []).map (Option.map (Property.rebind (retarget φ)))
        (List.map φ) := m.searchProperty (g.unvisited_lt_fuel [])
  rw [Graph.findProperty, Graph.findProperty, m.body?, m.pathOf, m.fuel_eq, hsearch]
  cases g.body? h with
  | none => rfl
  | some b =>
    cases b with
    | «class» c =>
      simp only [Option.map_some, Body.renumber, Body.rebind, Prod.map_fst]
      cases (g.searchProperty name g.fuel h []).1 <;> rfl
    | association a =>
      simp only [Option.map_some, Body.renumber, Body.rebind, a.findProperty_rebind]
      cases a.findProperty name <;> rfl
    | _ => rfl

theorem classOf? (p : Property) :
    g'.classOf? (p.rebind (retarget φ)) = (g.classOf? p).map φ := by
  have hclass : ∀ t, (g'.body? (φ t)).any (Family.admits .class) =
      (g.body? t).any (Family.admits .class) := by
    intro t
    rw [m.body?, Option.any_map]
    exact congrArg (Option.any · _) (funext (Family.admits_renumber .class))
  rw [Graph.classOf?, Graph.classOf?]
  change (p.type.target.map φ).filter _ = _
  cases p.type.target with
  | none => rfl
  | some t =>
    simp only [Option.map_some, Option.filter_some, hclass]
    cases (g.body? t).any (Family.admits .class) <;> rfl

theorem producer (h : Handle) (p : PropertyMapping) : g'.producer (φ h) (p.renumber φ) =
    (g.producer h p).map (Option.map (SetHandle.renumber φ)) := by
  have ht : (p.renumber φ).owner.target = p.owner.target.map φ := rfl
  have hp : (p.renumber φ).property = p.property := rfl
  have hn : (p.renumber φ).target = p.target := rfl
  rw [Graph.producer, Graph.producer, p.embedded?_renumber, ht, hp, hn]
  cases p.embedded? with
  | some index => rfl
  | none =>
    cases p.owner.target with
    | none => rfl
    | some owner =>
      simp only [Option.map_some, m.findProperty]
      cases g.findProperty owner p.property with
      | error fault => rfl
      | ok property =>
        simp only [Except.map, ok_bind, m.classOf?]
        cases g.classOf? property with
        | none => rfl
        | some c =>
          cases p.target.filter fun id => !id.isEmpty with
          | none =>
            simp only [Option.map_some, m.defaultClassMapping]
            rfl
          | some id =>
            simp only [Option.map_some, m.classMappingById]
            cases g.classMappingById h id <;> rfl

theorem wireProperty (h : Handle) (p : PropertyMapping) :
    (g.wireProperty h p).renumber φ = g'.wireProperty (φ h) (p.renumber φ) := by
  rw [Graph.wireProperty, Graph.wireProperty, m.producer]
  cases g.producer h p with
  | error fault => rfl
  | ok o => cases o <;> rfl

theorem wireParameter (h : Handle) (p : OperationParameter) :
    (g.wireParameter h p).renumber φ = g'.wireParameter (φ h) (p.renumber φ) := by
  have hi : (p.renumber φ).id = p.id := rfl
  rw [Graph.wireParameter, Graph.wireParameter, hi, m.classMappingById]
  cases g.classMappingById h p.id <;> rfl

theorem wireBody (h : Handle) (b : Body) :
    (g.wireBody h b).renumber φ = g'.wireBody (φ h) (b.renumber φ) := by
  cases b with
  | mapping n =>
    have hslot : ∀ s, (g.wireSlot h s).renumber φ = g'.wireSlot (φ h) (s.renumber φ) := fun s =>
      s.renumber_mapped (m.wireProperty h) (m.wireParameter h)
    simp only [Graph.wireBody, Body.renumber, Mapping.renumber, Mapping.rebind, List.map_map,
      Function.comp_def, hslot]
  | _ => rfl

theorem wireFaults (h : Handle) : g'.wireFaults (φ h) = g.wireFaults h := by
  have hslot : ∀ s, g'.slotFaults (φ h) (s.renumber φ) = g.slotFaults h s := by
    intro s
    simp only [slotFaults, s.parameters_renumber, s.properties_renumber, List.filterMap_map,
      Function.comp_def, m.producer, fault?_map]
    simp only [OperationParameter.renumber, m.classMappingById, fault?_map]
  rw [Graph.wireFaults_eq, Graph.wireFaults_eq, m.mapping?]
  cases g.mapping? h with
  | none => rfl
  | some n =>
    simp only [Option.map_some, Option.getD_some, Mapping.renumber, List.flatMap_map, hslot]

end LookUps

theorem wire (m : Renumbered r φ k g g') (h : Handle) :
    Renumbered r φ k (g.wire h).1 (g'.wire (φ h)).1 ∧ (g'.wire (φ h)).2 = (g.wire h).2 := by
  refine ⟨m.update (fun e _ => ?_) fun e _ => ?_, m.wireFaults h⟩
  · exact congrArg (fun b : Body => { e with package := e.package.map φ, body := b })
      (m.wireBody h e.body)
  · rw [← Body.children_unwire, unwire_wireBody, Body.children_unwire]
    exact List.Subset.refl _

theorem wireAll (m : Renumbered r φ k g g') :
    Renumbered r φ k g.wireAll.1 g'.wireAll.1 ∧ g'.wireAll.2 = g.wireAll.2 := by
  simp only [Graph.wireAll, m.ofKind, List.map_map, List.foldl_map, List.flatMap_map,
    Function.comp_apply, Prod.map_fst, m.wireFaults, and_true]
  exact List.foldl_rel m fun l _ a a' ma => (ma.wire l.1).1

end Renumbered
end ModelGraph.Graph
