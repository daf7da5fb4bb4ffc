import ModelGraph.Build.Validation
import ModelGraph.Proofs.Inventories
import ModelGraph.Proofs.Occurrences

namespace ModelGraph

/-- The items of a body that have annotations of their own. -/
inductive Item where
  | element
  | property (index : Nat)
  | derivedProperty (index : Nat)
  | value (index : Nat)

/-- One annotation of an item. -/
inductive AnnotationPlace where
  | stereotype (index : Nat)
  | tag (index : Nat)

/-- The expressions of a set implementation. -/
inductive SlotPlace where
  | primaryKey (index : Nat)
  | property (index : Nat)

/-- The expressions of a body. -/
inductive OperationPlace where
  | join (index : Nat)
  | slot (slot : Nat) (place : SlotPlace)

/-- One step down an expression, or to one of its joins. -/
inductive OperationStep where
  | parameter (index : Nat)
  | element
  | join (index : Nat)

/-- The pointers of an expression. -/
inductive Pointer where
  | table (steps : List OperationStep)
  | join (steps : List OperationStep)

/-- What may be wrong in a body. -/
inductive BodyPlace where
  | mark (item : Item) (place : AnnotationPlace)
  | mainTable (slot : Nat)
  | pointer (place : OperationPlace) (pointer : Pointer)

inductive Body.Annotated : Body → Item → Annotations → Prop
  | class_ {c : Class} : Annotated (.class c) .element c.annotations
  | classProperty {c : Class} {i : Nat} {p : Property} : c.properties[i]? = some p →
      Annotated (.class c) (.property i) p.annotations
  | classDerivedProperty {c : Class} {i : Nat} {p : DerivedProperty} :
      c.derivedProperties[i]? = some p → Annotated (.class c) (.derivedProperty i) p.annotations
  | association {a : Association} : Annotated (.association a) .element a.annotations
  | associationProperty {a : Association} {i : Nat} {p : Property} : a.properties[i]? = some p →
      Annotated (.association a) (.property i) p.annotations
  | associationDerivedProperty {a : Association} {i : Nat} {p : DerivedProperty} :
      a.derivedProperties[i]? = some p →
      Annotated (.association a) (.derivedProperty i) p.annotations
  | enumeration {e : Enumeration} : Annotated (.enumeration e) .element e.annotations
  | value {e : Enumeration} {i : Nat} {v : EnumValue} : e.values[i]? = some v →
      Annotated (.enumeration e) (.value i) v.annotations
  | function {f : Function} : Annotated (.function f) .element f.annotations
  | service {s : Service} : Annotated (.service s) .element s.annotations

/-- The main tables of a mapping stand in its slots, whether these are at the top or not. -/
inductive Body.MainTable : Body → Nat → TablePointer → Prop
  | slot {m : Mapping} {i : Nat} {s : SetImplementation} {distinct : Bool} {t : TablePointer}
      {key : List RelationalOperation} {properties : List PropertyMapping} :
      m.slots[i]? = some s → s.kind = .relational distinct (some t) key properties →
      MainTable (.mapping m) i t

inductive SetImplementation.Computes (s : SetImplementation) :
    SlotPlace → RelationalOperation → Prop
  | primaryKey {distinct : Bool} {table : Option TablePointer} {key : List RelationalOperation}
      {properties : List PropertyMapping} {i : Nat} {o : RelationalOperation} :
      s.kind = .relational distinct table key properties → key[i]? = some o →
      Computes s (.primaryKey i) o
  | property {i : Nat} {p : PropertyMapping} {o : RelationalOperation} :
      s.properties[i]? = some p → p.kind = .relational o → Computes s (.property i) o

inductive Body.Computes : Body → OperationPlace → RelationalOperation → Prop
  | join {d : Database} {i : Nat} {j : Join} : d.joins[i]? = some j →
      Computes (.database d) (.join i) j.operation
  | slot {m : Mapping} {i : Nat} {s : SetImplementation} {place : SlotPlace}
      {o : RelationalOperation} : m.slots[i]? = some s → s.Computes place o →
      Computes (.mapping m) (.slot i place) o

inductive RelationalOperation.TableAt :
    RelationalOperation → List OperationStep → TablePointer → Prop
  | column {t : TablePointer} {tableAlias name : String} : TableAt (.column t tableAlias name) [] t
  | parameter {name : String} {parameters : List RelationalOperation} {i : Nat}
      {o : RelationalOperation} {steps : List OperationStep} {t : TablePointer} :
      parameters[i]? = some o → TableAt o steps t →
      TableAt (.call name parameters) (.parameter i :: steps) t
  | element {joins : List JoinPointer} {o : RelationalOperation} {steps : List OperationStep}
      {t : TablePointer} : TableAt o steps t →
      TableAt (.joined joins (some o)) (.element :: steps) t

inductive RelationalOperation.JoinAt :
    RelationalOperation → List OperationStep → JoinPointer → Prop
  | join {joins : List JoinPointer} {element : Option RelationalOperation} {i : Nat}
      {j : JoinPointer} : joins[i]? = some j → JoinAt (.joined joins element) [.join i] j
  | parameter {name : String} {parameters : List RelationalOperation} {i : Nat}
      {o : RelationalOperation} {steps : List OperationStep} {j : JoinPointer} :
      parameters[i]? = some o → JoinAt o steps j →
      JoinAt (.call name parameters) (.parameter i :: steps) j
  | element {joins : List JoinPointer} {o : RelationalOperation} {steps : List OperationStep}
      {j : JoinPointer} : JoinAt o steps j →
      JoinAt (.joined joins (some o)) (.element :: steps) j

section Holds

variable {b : Body} {l : Link}

theorem Body.Annotated.holds {item : Item} {x : Annotations} (h : b.Annotated item x)
    (hl : x.Holds l) : b.Holds l := by
  cases h with
  | class_ => exact .class_ <| Class.Holds.annotation hl
  | classProperty hp =>
    exact .class_ <| .property (List.mem_of_getElem? hp) <| Property.Holds.annotation hl
  | classDerivedProperty hp =>
    exact .class_ <| .derivedProperty (List.mem_of_getElem? hp) <|
      DerivedProperty.Holds.annotation hl
  | association => exact .association <| Association.Holds.annotation hl
  | associationProperty hp =>
    exact .association <| .property (List.mem_of_getElem? hp) <| Property.Holds.annotation hl
  | associationDerivedProperty hp =>
    exact .association <| .derivedProperty (List.mem_of_getElem? hp) <|
      DerivedProperty.Holds.annotation hl
  | enumeration => exact .enumeration <| Enumeration.Holds.annotation hl
  | value hv => exact .enumeration (.value (List.mem_of_getElem? hv) hl)
  | function => exact .function <| Function.Holds.annotation hl
  | service => exact .service <| Service.Holds.annotation hl

theorem Body.MainTable.holds {slot : Nat} {t : TablePointer} (h : b.MainTable slot t) :
    b.Holds t.database.link := by
  cases h with
  | slot hs hk => exact .mapping (.slot (List.mem_of_getElem? hs) (.kind (hk ▸ .mainTable)))

theorem Body.Computes.holds {place : OperationPlace} {o : RelationalOperation}
    (h : b.Computes place o) (hl : o.Holds l) : b.Holds l := by
  cases h with
  | join hj => exact .database (.join (List.mem_of_getElem? hj) hl)
  | slot hs ho =>
    refine .mapping (.slot (List.mem_of_getElem? hs) ?_)
    cases ho with
    | primaryKey hk hi => exact .kind (hk ▸ .primaryKey (List.mem_of_getElem? hi) hl)
    | property hp hk => exact .property (List.mem_of_getElem? hp) (.operation hk hl)

theorem RelationalOperation.TableAt.holds {o : RelationalOperation} {steps : List OperationStep}
    {t : TablePointer} (h : o.TableAt steps t) : o.Holds t.database.link := by
  induction h with
  | column => exact .table
  | parameter ho _ ih => exact .parameter (List.mem_of_getElem? ho) ih
  | element _ ih => exact .element ih

theorem RelationalOperation.JoinAt.holds {o : RelationalOperation} {steps : List OperationStep}
    {j : JoinPointer} (h : o.JoinAt steps j) : o.Holds j.database.link := by
  induction h with
  | join hj => exact .join (List.mem_of_getElem? hj)
  | parameter ho _ ih => exact .parameter (List.mem_of_getElem? ho) ih
  | element _ ih => exact .element ih

end Holds

theorem inventory_annotations (own : Annotations) (ps : List Property)
    (ds : List DerivedProperty) :
    Inventory (fun item a => (item = .element ∧ a = own) ∨
        (∃ i, Item.property i = item ∧ ∃ p, ps[i]? = some p ∧ p.annotations = a) ∨
          ∃ i, Item.derivedProperty i = item ∧ ∃ p, ds[i]? = some p ∧ p.annotations = a)
      (own :: (ps.map Property.annotations ++ ds.map DerivedProperty.annotations)) := by
  have hproperties := ((Inventory.getElem? ps).map Property.annotations).reindex
    fun _ _ => Item.property.inj
  have hderived := ((Inventory.getElem? ds).map DerivedProperty.annotations).reindex
    fun _ _ => Item.derivedProperty.inj
  refine (Inventory.singleton Item.element own).append (hproperties.append hderived ?_) ?_
  · rintro _ _ _ ⟨i, rfl, -⟩ ⟨j, heq, -⟩
    cases heq
  · rintro _ _ _ ⟨rfl, -⟩ (⟨i, heq, -⟩ | ⟨i, heq, -⟩)
    · cases heq
    · cases heq

theorem Body.inventory_annotated (b : Body) : Inventory b.Annotated (Graph.annotations b) := by
  cases b with
  | «class» c =>
    refine (inventory_annotations c.annotations c.properties c.derivedProperties).congr
      fun item a => ⟨?_, ?_⟩
    · rintro (⟨rfl, rfl⟩ | ⟨i, rfl, p, hp, rfl⟩ | ⟨i, rfl, p, hp, rfl⟩)
      · exact .class_
      · exact .classProperty hp
      · exact .classDerivedProperty hp
    · intro h
      cases h with
      | class_ => exact .inl ⟨rfl, rfl⟩
      | classProperty hp => exact .inr (.inl ⟨_, rfl, _, hp, rfl⟩)
      | classDerivedProperty hp => exact .inr (.inr ⟨_, rfl, _, hp, rfl⟩)
  | association a =>
    refine (inventory_annotations a.annotations a.properties a.derivedProperties).congr
      fun item a => ⟨?_, ?_⟩
    · rintro (⟨rfl, rfl⟩ | ⟨i, rfl, p, hp, rfl⟩ | ⟨i, rfl, p, hp, rfl⟩)
      · exact .association
      · exact .associationProperty hp
      · exact .associationDerivedProperty hp
    · intro h
      cases h with
      | association => exact .inl ⟨rfl, rfl⟩
      | associationProperty hp => exact .inr (.inl ⟨_, rfl, _, hp, rfl⟩)
      | associationDerivedProperty hp => exact .inr (.inr ⟨_, rfl, _, hp, rfl⟩)
  | enumeration e =>
    have hvalues := ((Inventory.getElem? e.values).map EnumValue.annotations).reindex
      fun _ _ => Item.value.inj
    refine ((Inventory.singleton Item.element e.annotations).append hvalues ?_).congr
      fun item a => ⟨?_, ?_⟩
    · rintro _ _ _ ⟨rfl, -⟩ ⟨i, heq, -⟩
      cases heq
    · rintro (⟨rfl, rfl⟩ | ⟨i, rfl, v, hv, rfl⟩)
      · exact .enumeration
      · exact .value hv
    · intro h
      cases h with
      | enumeration => exact .inl ⟨rfl, rfl⟩
      | value hv => exact .inr ⟨_, rfl, _, hv, rfl⟩
  | function f =>
    refine (Inventory.singleton Item.element f.annotations).congr fun item a => ⟨?_, ?_⟩
    · rintro ⟨rfl, rfl⟩
      exact .function
    · rintro ⟨⟩
      exact ⟨rfl, rfl⟩
  | service s =>
    refine (Inventory.singleton Item.element s.annotations).congr fun item a => ⟨?_, ?_⟩
    · rintro ⟨rfl, rfl⟩
      exact .service
    · rintro ⟨⟩
      exact ⟨rfl, rfl⟩
  | _ => exact .nil fun item a h => nomatch h

theorem SetImplementation.mainTable?_eq_some {s : SetImplementation} {t : TablePointer} :
    s.mainTable? = some t ↔
      ∃ distinct key properties, s.kind = .relational distinct (some t) key properties := by
  rw [mainTable?]
  cases s.kind <;> simp

theorem PropertyMapping.operation?_eq_some {p : PropertyMapping} {o : RelationalOperation} :
    p.operation? = some o ↔ p.kind = .relational o := by
  rw [operation?]
  cases p.kind <;> simp

theorem Body.inventory_mainTable (b : Body) : Inventory b.MainTable (Graph.mainTables b) := by
  cases b with
  | mapping m =>
    refine ((Inventory.getElem? m.slots).filterMap SetImplementation.mainTable?).congr
      fun i t => ⟨?_, ?_⟩
    · rintro ⟨s, hs, ht⟩
      obtain ⟨distinct, key, properties, hk⟩ := SetImplementation.mainTable?_eq_some.mp ht
      exact .slot hs hk
    · rintro ⟨hs, hk⟩
      exact ⟨_, hs, SetImplementation.mainTable?_eq_some.mpr ⟨_, _, _, hk⟩⟩
  | _ => exact .nil fun i t h => nomatch h

theorem SetImplementation.inventory_computes (s : SetImplementation) :
    Inventory s.Computes (Graph.slotOperations s) := by
  have hkeys := (Inventory.getElem? s.primaryKey).reindex fun _ _ => SlotPlace.primaryKey.inj
  have hproperties := ((Inventory.getElem? s.properties).filterMap
    PropertyMapping.operation?).reindex fun _ _ => SlotPlace.property.inj
  refine (hkeys.append hproperties ?_).congr fun place o => ⟨?_, ?_⟩
  · rintro _ _ _ ⟨i, rfl, -⟩ ⟨j, heq, -⟩
    cases heq
  · rintro (⟨i, rfl, hi⟩ | ⟨i, rfl, p, hp, ho⟩)
    · obtain ⟨distinct, table, key, properties, hk⟩ :
          ∃ distinct table key properties, s.kind = .relational distinct table key properties := by
        rw [primaryKey] at hi
        split at hi
        next hk => exact ⟨_, _, _, _, hk⟩
        · cases hi
      rw [primaryKey, hk] at hi
      exact .primaryKey hk hi
    · exact .property hp (PropertyMapping.operation?_eq_some.mp ho)
  · intro h
    cases h with
    | primaryKey hk hi => exact .inl ⟨_, rfl, by rw [primaryKey, hk]; exact hi⟩
    | property hp ho => exact .inr ⟨_, rfl, _, hp, PropertyMapping.operation?_eq_some.mpr ho⟩

theorem Body.inventory_computes (b : Body) : Inventory b.Computes (Graph.operations b) := by
  cases b with
  | database d =>
    refine (((Inventory.getElem? d.joins).map Join.operation).reindex
      fun _ _ => OperationPlace.join.inj).congr fun place o => ⟨?_, ?_⟩
    · rintro ⟨i, rfl, j, hj, rfl⟩
      exact .join hj
    · rintro ⟨hj⟩
      exact ⟨_, rfl, _, hj, rfl⟩
  | mapping m =>
    have hslots := (Inventory.getElem? m.slots).flatMap fun s _ => s.inventory_computes
    have hinjective : Function.Injective fun k : Nat × SlotPlace => OperationPlace.slot k.1 k.2 :=
      fun _ _ heq => Prod.ext (OperationPlace.slot.inj heq).1 (OperationPlace.slot.inj heq).2
    refine (hslots.reindex hinjective).congr fun place o => ⟨?_, ?_⟩
    · rintro ⟨k, rfl, s, hs, ho⟩
      exact .slot hs ho
    · intro h
      cases h with
      | slot hs ho => exact ⟨(_, _), rfl, _, hs, ho⟩
  | _ => exact .nil fun i t h => nomatch h

namespace RelationalOperation

/-- What holds of an expression as soon as it holds of the expressions right below it holds of every
expression. -/
theorem of_parts {P : RelationalOperation → Prop}
    (column : ∀ table tableAlias name, P (.column table tableAlias name))
    (call : ∀ name parameters, (∀ o ∈ parameters, P o) → P (.call name parameters))
    (literal : ∀ value, P (.literal value)) (joins : ∀ joins, P (.joined joins none))
    (element : ∀ joins o, P o → P (.joined joins (some o))) (o : RelationalOperation) : P o := by
  refine @RelationalOperation.rec P (fun os => ∀ o ∈ os, P o) (fun below => ∀ o ∈ below, P o)
    column call literal (fun js below ih => ?_) (List.forall_mem_nil P)
    (fun _ _ ho hos => List.forall_mem_cons.mpr ⟨ho, hos⟩) (fun _ h => nomatch h)
    (fun _ ho _ h => Option.some.inj h ▸ ho) o
  cases below with
  | none => exact joins js
  | some o => exact element js o (ih o rfl)

theorem tablesOf_eq (os : List RelationalOperation) : tablesOf os = os.flatMap tables := by
  induction os with
  | nil => rfl
  | cons o os ih => rw [tablesOf, ih, List.flatMap_cons]

theorem joinsOf_eq (os : List RelationalOperation) : joinsOf os = os.flatMap joins := by
  induction os with
  | nil => rfl
  | cons o os ih => rw [joinsOf, ih, List.flatMap_cons]

/-- What stands in the parameters of a call, with the number of the parameter as the first step. -/
theorem inventory_parameters {α : Type} {Q : RelationalOperation → List OperationStep → α → Prop}
    {f : RelationalOperation → List α} {parameters : List RelationalOperation}
    (h : ∀ o ∈ parameters, Inventory (Q o) (f o)) :
    Inventory (fun steps a => ∃ i rest, .parameter i :: rest = steps ∧
      ∃ o, parameters[i]? = some o ∧ Q o rest a) (parameters.flatMap f) := by
  have hinjective : Function.Injective fun k : Nat × List OperationStep =>
      OperationStep.parameter k.1 :: k.2 := by
    rintro ⟨i, rest⟩ ⟨j, rest'⟩ heq
    cases heq
    rfl
  refine (((Inventory.getElem? parameters).flatMap h).reindex hinjective).congr
    fun steps a => ⟨?_, ?_⟩
  · rintro ⟨k, rfl, ho⟩
    exact ⟨k.1, k.2, rfl, ho⟩
  · rintro ⟨i, rest, rfl, ho⟩
    exact ⟨(i, rest), rfl, ho⟩

theorem inventory_tables (o : RelationalOperation) : Inventory o.TableAt o.tables := by
  induction o using of_parts with
  | column t tableAlias name =>
    refine (Inventory.singleton [] t).congr fun steps t' => ⟨?_, ?_⟩
    · rintro ⟨rfl, rfl⟩
      exact .column
    · rintro ⟨⟩
      exact ⟨rfl, rfl⟩
  | call name parameters ih =>
    rw [tables, tablesOf_eq]
    refine (inventory_parameters ih).congr fun steps t => ⟨?_, ?_⟩
    · rintro ⟨i, rest, rfl, o, ho, ht⟩
      exact .parameter ho ht
    · intro h
      cases h with
      | parameter ho ht => exact ⟨_, _, rfl, _, ho, ht⟩
  | literal value => exact .nil fun steps t h => nomatch h
  | joins js => exact .nil fun steps t h => nomatch h
  | element js o ih =>
    refine (ih.reindex (List.cons_injective (a := OperationStep.element))).congr
      fun steps t => ⟨?_, ?_⟩
    · rintro ⟨rest, rfl, ht⟩
      exact .element ht
    · intro h
      cases h with
      | element ht => exact ⟨_, rfl, ht⟩

theorem inventory_joins (o : RelationalOperation) : Inventory o.JoinAt o.joins := by
  have hhere (js : List JoinPointer) :
      Inventory (fun steps j => ∃ i, [OperationStep.join i] = steps ∧ js[i]? = some j) js := by
    refine (Inventory.getElem? js).reindex fun i i' heq => ?_
    cases heq
    rfl
  induction o using of_parts with
  | column t tableAlias name => exact .nil fun steps j h => nomatch h
  | call name parameters ih =>
    rw [joins, joinsOf_eq]
    refine (inventory_parameters ih).congr fun steps j => ⟨?_, ?_⟩
    · rintro ⟨i, rest, rfl, o, ho, hj⟩
      exact .parameter ho hj
    · intro h
      cases h with
      | parameter ho hj => exact ⟨_, _, rfl, _, ho, hj⟩
  | literal value => exact .nil fun steps j h => nomatch h
  | joins js =>
    refine (hhere js).congr fun steps j => ⟨?_, ?_⟩
    · rintro ⟨i, rfl, hj⟩
      exact .join hj
    · intro h
      cases h with
      | join hj => exact ⟨_, rfl, hj⟩
  | element js o ih =>
    have hbelow := ih.reindex (List.cons_injective (a := OperationStep.element))
    refine ((hhere js).append hbelow ?_).congr fun steps j => ⟨?_, ?_⟩
    · rintro _ _ _ ⟨i, rfl, -⟩ ⟨rest, heq, -⟩
      cases heq
    · rintro (⟨i, rfl, hj⟩ | ⟨rest, rfl, hj⟩)
      · exact .join hj
      · exact .element hj
    · intro h
      cases h with
      | join hj => exact .inl ⟨_, rfl, hj⟩
      | element hj => exact .inr ⟨_, rfl, hj⟩

end RelationalOperation

end ModelGraph
