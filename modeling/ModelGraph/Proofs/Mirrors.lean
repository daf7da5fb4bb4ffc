import ModelGraph.Proofs.Rebuilding

namespace ModelGraph

/-- Takes references elsewhere, their paths by one map and their targets by another one. -/
def carry (μ : Path → Path) (φ : Handle → Handle) : Rebinding :=
  fun _ r => ⟨μ r.path, r.target.map φ⟩

def Element.outline (e : Element) : Bool × Body := (e.deleted, e.body.outline)

def Element.carry (μ : Path → Path) (φ : Handle → Handle) (e : Element) : Element :=
  { e with body := e.body.rebind (ModelGraph.carry μ φ) }

theorem contains_map_of_beq {α β : Type} [BEq α] [BEq β] {f : α → β}
    (hf : ∀ a b, (f a == f b) = (a == b)) (l : List α) (a : α) :
    (l.map f).contains (f a) = l.contains a := by
  induction l with
  | nil => rfl
  | cons b l ih => rw [List.map_cons, List.contains_cons, List.contains_cons, hf, ih]

namespace Graph

/-- The second graph holds the outlines of what the first one holds, each element at the handle that
`φ` gives, and with the paths of its references where `μ` takes them. -/
structure Mirrors (μ : Path → Path) (φ : Handle → Handle) (g g' : Graph) : Prop where
  injective : ∀ h k, φ h = φ k → h = k
  surjective : ∀ h', ∃ h, φ h = h'
  size : g'.elements.size = g.elements.size
  element : ∀ h, (g'.element? (φ h)).map Element.outline =
    (g.element? h).map fun e => (e.carry μ φ).outline

namespace Mirrors

variable {μ : Path → Path} {φ : Handle → Handle} {g g' : Graph} (m : Mirrors μ φ g g')
include m

theorem fuel_eq : g'.fuel = g.fuel := congrArg Nat.succ m.size

theorem element? {h : Handle} {e : Element} (he : g.element? h = some e) :
    ∃ e', g'.element? (φ h) = some e' ∧ e'.outline = (e.carry μ φ).outline := by
  have hm := m.element h
  rw [he, Option.map_some, Option.map_eq_some_iff] at hm
  exact hm

theorem element?_none {h : Handle} (he : g.element? h = none) : g'.element? (φ h) = none := by
  have hm := m.element h
  rwa [he, Option.map_none, Option.map_eq_none_iff] at hm

theorem liveAt {h : Handle} {e : Element} (hl : g.LiveAt h e) : ∃ e', g'.LiveAt (φ h) e' ∧
    e'.body.outline = (e.body.rebind (carry μ φ)).outline := by
  obtain ⟨e', he', ho⟩ := m.element? hl.1
  simp only [Element.outline, Prod.mk.injEq] at ho
  exact ⟨e', ⟨he', ho.1.trans hl.2⟩, ho.2⟩

theorem liveAt_back {h' : Handle} {e' : Element} (hl : g'.LiveAt h' e') : ∃ h e, φ h = h' ∧
    g.LiveAt h e ∧ e'.body.outline = (e.body.rebind (carry μ φ)).outline := by
  obtain ⟨h, rfl⟩ := m.surjective h'
  cases he : g.element? h with
  | none =>
    rw [LiveAt, m.element?_none he] at hl
    cases hl.1
  | some e =>
    obtain ⟨e'', he'', ho⟩ := m.element? he
    obtain rfl := Option.some.inj (he''.symm.trans hl.1)
    simp only [Element.outline, Prod.mk.injEq] at ho
    exact ⟨h, e, rfl, ⟨he, ho.1.symm.trans hl.2⟩, ho.2⟩

theorem isDeleted (h : Handle) : g'.isDeleted (φ h) = g.isDeleted h := by
  have hm := congrArg (Option.any Prod.fst) (m.element h)
  simp only [Option.any_map, Element.outline, Element.carry] at hm
  exact hm

theorem outlines {α : Type} (V : Body → Option α) (h : Handle) :
    ((g'.body? (φ h)).bind fun b => V b.outline) =
      (g.body? h).bind fun b => V (b.rebind (carry μ φ)).outline := by
  have hm := congrArg (Option.bind · fun x : Bool × Body => V x.2) (m.element h)
  simp only [Option.bind_map, Function.comp_def, Element.outline, Element.carry] at hm
  simp only [Graph.body?, Option.bind_map, Function.comp_def, hm]

theorem view {α : Type} {V : Body → Option α} (hV : ∀ b, V b.outline = V b) (h : Handle) :
    (g'.body? (φ h)).bind V = (g.body? h).bind fun b => V (b.rebind (carry μ φ)) := by
  have ho := m.outlines V h
  simp only [hV] at ho
  exact ho

theorem view_target {α : Type} {V : Body → Option α} (hV : ∀ b, V b.outline = V b) {F : Family}
    (r : Reference F) : ((carry μ φ F r).target.bind g'.body?).bind V =
      (r.target.bind g.body?).bind fun b => V (b.rebind (carry μ φ)) := by
  rw [carry]
  cases r.target with
  | none => rfl
  | some h => exact m.view hV h

theorem beq_eq (h k : Handle) : (φ h == φ k) = (h == k) := by
  by_cases hk : h = k
  · rw [hk, beq_self_eq_true, beq_self_eq_true]
  · have hne : φ h ≠ φ k := fun he => hk (m.injective h k he)
    rw [beq_eq_false_iff_ne.mpr hk, beq_eq_false_iff_ne.mpr hne]

theorem contains_map (l : List Handle) (h : Handle) : (l.map φ).contains (φ h) = l.contains h :=
  contains_map_of_beq m.beq_eq l h

theorem pointsTo {F : Family} (r : Reference F) (h : Handle) :
    (carry μ φ F r).pointsTo (φ h) = r.pointsTo h := by
  cases ht : r.target with
  | none => simp [Reference.pointsTo, carry, ht]
  | some k => simp [Reference.pointsTo, carry, ht, m.beq_eq]

theorem includedStores (h : Handle) :
    g'.includedStores (φ h) = (g.includedStores h).map φ := by
  rw [Graph.includedStores, Graph.includedStores, m.view Body.storeIncludes?_outline]
  cases g.body? h with
  | none => rfl
  | some b =>
    rw [Option.bind_some, Option.bind_some, Body.storeIncludes?_rebind]
    cases b.storeIncludes? with
    | none => rfl
    | some stores =>
      simp only [Option.map_some, Option.getD_some, List.filterMap_map, List.map_filterMap]
      rfl

theorem appendNew_map (found items : List Handle) :
    appendNew (found.map φ) (items.map φ) = (appendNew found items).map φ := by
  simp only [appendNew]
  induction items generalizing found with
  | nil => rfl
  | cons h items ih =>
    rw [List.map_cons, List.foldl_cons, List.foldl_cons, m.contains_map]
    split
    · exact ih found
    · rw [← ih (found ++ [h]), List.map_append]
      rfl

theorem closeStores (fuel position : Nat) (found : List Handle) :
    g'.closeStores fuel position (found.map φ) = (g.closeStores fuel position found).map φ := by
  induction fuel generalizing position found with
  | zero => rfl
  | succ fuel ih =>
    rw [Graph.closeStores, Graph.closeStores, List.getElem?_map]
    cases found[position]? with
    | none => rfl
    | some h =>
      simp only [Option.map_some]
      rw [m.includedStores, m.appendNew_map, ih]

theorem storeClosure (h : Handle) : g'.storeClosure (φ h) = (g.storeClosure h).map φ := by
  rw [Graph.storeClosure, Graph.storeClosure, m.fuel_eq]
  exact m.closeStores g.fuel 0 [h]

end Mirrors

theorem profile?_eq (g : Graph) (r : Reference .profile) :
    g.profile? r = (r.target.bind g.body?).bind Body.profile? := by
  rw [profile?]
  cases r.target.bind g.body? with
  | none => rfl
  | some b => cases b <;> rfl

theorem databases?_eq (g : Graph) (r : Reference .database) : g.databases? r =
    r.target.map fun h => (g.storeClosure h).filterMap fun s => (g.body? s).bind Body.database? := by
  rw [databases?]
  refine congrArg r.target.map (funext fun h => ?_)
  refine congrArg (fun f => (g.storeClosure h).filterMap f) (funext fun s => ?_)
  cases g.body? s with
  | none => rfl
  | some b => cases b <;> rfl

namespace Mirrors

variable {μ : Path → Path} {φ : Handle → Handle} {g g' : Graph} (m : Mirrors μ φ g g')
include m

theorem profile? (r : Reference .profile) : g'.profile? (carry μ φ _ r) = g.profile? r := by
  rw [profile?_eq, profile?_eq, m.view_target Body.profile?_outline]
  simp only [Body.profile?_rebind]

theorem databases? (r : Reference .database) :
    (g'.databases? (carry μ φ _ r)).map (List.map Database.standard) =
      (g.databases? r).map (List.map fun d => (d.rebind (carry μ φ)).standard) := by
  have hdatabase : ∀ h, ((g'.body? (φ h)).bind Body.database?).map Database.standard =
      ((g.body? h).bind Body.database?).map fun d => (d.rebind (carry μ φ)).standard := by
    intro h
    simp only [Option.map_bind, Function.comp_def]
    rw [m.view Body.database?_outline]
    simp only [Body.database?_rebind, Option.map_map, Function.comp_def]
  rw [databases?_eq, databases?_eq, carry]
  cases r.target with
  | none => rfl
  | some h =>
    simp only [Option.map_some, m.storeClosure, List.filterMap_map, List.map_filterMap,
      Function.comp_def, hdatabase]

theorem databases?_any {r : Reference .database} {P : Database → Bool}
    (hs : ∀ d, P d.standard = P d) (hr : ∀ d, P (d.rebind (carry μ φ)) = P d) :
    (g'.databases? (carry μ φ _ r)).map (List.any · P) = (g.databases? r).map (List.any · P) := by
  have hm := congrArg (Option.map (List.any · P)) (m.databases? r)
  simp only [Option.map_map, Function.comp_def, List.any_map, hs, hr] at hm
  exact hm

end Mirrors

section Faults

variable {g : Graph} {path : Path}

theorem stereotypeFault?_eq_none {s : Stereotype} : g.stereotypeFault? path s = none ↔
    (g.profile? s.profile).map (·.hasStereotype s.name) ≠ some false := by
  rw [stereotypeFault?]
  cases g.profile? s.profile with
  | none => simp
  | some p => simp

theorem tagFault?_eq_none {t : TaggedValue} : g.tagFault? path t = none ↔
    (g.profile? t.profile).map (·.hasTag t.tag) ≠ some false := by
  rw [tagFault?]
  cases g.profile? t.profile with
  | none => simp
  | some p => simp

theorem tableFault?_eq_none {t : TablePointer} : g.tableFault? path t = none ↔
    (g.databases? t.database).map (List.any · fun d => (d.table? t.schema t.table).isSome) ≠
      some false := by
  rw [tableFault?]
  cases g.databases? t.database with
  | none => simp
  | some ds =>
    simp only [Option.map_some]
    cases ds.any fun d => (d.table? t.schema t.table).isSome <;> simp

theorem joinFault?_eq_none {j : JoinPointer} : g.joinFault? path j = none ↔
    (g.databases? j.database).map (List.any · fun d => d.hasJoin j.name) ≠ some false := by
  rw [joinFault?]
  cases g.databases? j.database with
  | none => simp
  | some ds =>
    simp only [Option.map_some]
    cases ds.any fun d => d.hasJoin j.name <;> simp

end Faults

namespace Mirrors

variable {μ : Path → Path} {φ : Handle → Handle} {g g' : Graph} (m : Mirrors μ φ g g') {path path' : Path}
include m

theorem annotationFaults {a : Annotations} (h : g.annotationFaults path a = []) :
    g'.annotationFaults path' (a.rebind (carry μ φ)) = [] := by
  simp only [Graph.annotationFaults, List.append_eq_nil_iff, List.filterMap_eq_nil_iff,
    Annotations.rebind, List.forall_mem_map, stereotypeFault?_eq_none, tagFault?_eq_none,
    m.profile?] at h ⊢
  exact h

theorem tableFault? {t : TablePointer} (h : g.tableFault? path t = none) :
    g'.tableFault? path' (t.rebind (carry μ φ)) = none := by
  rw [tableFault?_eq_none] at h ⊢
  rw [TablePointer.rebind, m.databases?_any]
  · exact h
  · exact fun d => d.isSome_table?_standard t.schema t.table
  · exact fun d => rfl

theorem joinFault? {j : JoinPointer} (h : g.joinFault? path j = none) :
    g'.joinFault? path' (j.rebind (carry μ φ)) = none := by
  rw [joinFault?_eq_none] at h ⊢
  rw [JoinPointer.rebind, m.databases?_any]
  · exact h
  · exact fun d => rfl
  · exact fun d => d.hasJoin_rebind (carry μ φ) j.name

theorem operationFaults {o : RelationalOperation} (h : g.operationFaults path o = []) :
    g'.operationFaults path' (o.rebind (carry μ φ)) = [] := by
  simp only [Graph.operationFaults, List.append_eq_nil_iff, List.filterMap_eq_nil_iff,
    RelationalOperation.tables_rebind, RelationalOperation.joins_rebind,
    List.forall_mem_map] at h ⊢
  exact ⟨fun t ht => m.tableFault? (h.1 t ht), fun j hj => m.joinFault? (h.2 j hj)⟩

theorem bodyFaults {b b' : Body} (hb : b'.outline = (b.rebind (carry μ φ)).outline)
    (h : g.bodyFaults path b = []) : g'.bodyFaults path' b' = [] := by
  have ha : annotations b' = (annotations b).map (Annotations.rebind (carry μ φ)) := by
    rw [← annotations_outline b', hb, annotations_outline, annotations_rebind]
  have ht : mainTables b' = (mainTables b).map (TablePointer.rebind (carry μ φ)) := by
    rw [← mainTables_outline b', hb, mainTables_outline, mainTables_rebind]
  have ho : operations b' = (operations b).map (RelationalOperation.rebind (carry μ φ)) := by
    rw [← operations_outline b', hb, operations_outline, operations_rebind]
  simp only [Graph.bodyFaults, List.append_eq_nil_iff, List.flatMap_eq_nil_iff,
    List.filterMap_eq_nil_iff, ha, ht, ho, List.forall_mem_map] at h ⊢
  exact ⟨⟨fun a hm => m.annotationFaults (h.1.1 a hm), fun t hm => m.tableFault? (h.1.2 t hm)⟩,
    fun o hm => m.operationFaults (h.2 o hm)⟩

theorem validate (w : g.WellFormed) (w' : g'.WellFormed) (h : g.validate = []) :
    g'.validate = [] := by
  simp only [Graph.validate, List.flatMap_eq_nil_iff] at h ⊢
  rintro ⟨k', e'⟩ hlive
  obtain ⟨k, e, rfl, hl, hg⟩ := m.liveAt_back ((mem_live w').mp hlive)
  exact m.bodyFaults hg (h _ ((mem_live w).mpr hl))

end Mirrors
end Graph
end ModelGraph
