import ModelGraph.Proofs.Places
import ModelGraph.Proofs.StoreClosures

namespace ModelGraph

namespace Database

/-- A schema of the name declares the table. -/
def Declares (d : Database) (t : TablePointer) : Prop :=
  ∃ s ∈ d.schemas, s.name = t.schema ∧ ∃ x ∈ s.tables, x.name = t.table

/-- The first schema of the name declares the table. -/
def DeclaresFirst (d : Database) (t : TablePointer) : Prop :=
  ∃ before s after, d.schemas = before ++ s :: after ∧ (∀ s' ∈ before, s'.name ≠ t.schema) ∧
    s.name = t.schema ∧ ∃ x ∈ s.tables, x.name = t.table

variable {d : Database} {t : TablePointer}

theorem isSome_table?_iff : (d.table? t.schema t.table).isSome = true ↔ d.DeclaresFirst t := by
  have htable (s : Schema) : (s.tables.find? (·.name == t.table)).isSome = true ↔
      ∃ x ∈ s.tables, x.name = t.table := by simp
  rw [table?]
  cases hs : d.schema? t.schema with
  | none =>
    rw [schema?, List.find?_eq_none] at hs
    constructor
    · intro h
      cases h
    · rintro ⟨before, s, after, heq, -, hname, -⟩
      have hmem : s ∈ d.schemas := heq ▸ List.mem_append_right _ List.mem_cons_self
      exact absurd (by simpa using hname) (hs s hmem)
  | some s =>
    obtain ⟨hname, before, after, heq, hbefore⟩ := List.find?_eq_some_iff_append.mp hs
    rw [Option.bind_some, htable]
    constructor
    · intro hx
      exact ⟨before, s, after, heq, by simpa using hbefore, by simpa using hname, hx⟩
    · rintro ⟨before', s', after', heq', hbefore', hname', hx⟩
      have hfirst : d.schema? t.schema = some s' := by
        refine List.find?_eq_some_iff_append.mpr ⟨by simpa using hname', before', after', heq', ?_⟩
        simpa using hbefore'
      rw [hs] at hfirst
      exact Option.some.inj hfirst ▸ hx

theorem DeclaresFirst.declares (h : d.DeclaresFirst t) : d.Declares t := by
  obtain ⟨before, s, after, heq, -, hs⟩ := h
  exact ⟨s, heq ▸ List.mem_append_right _ List.mem_cons_self, hs⟩

/-- Where no schema has the name of another one, the first one of a name is the only one. -/
theorem Declares.declaresFirst (hn : (d.schemas.map Schema.name).Nodup) (h : d.Declares t) :
    d.DeclaresFirst t := by
  obtain ⟨s, hs, hname, hx⟩ := h
  obtain ⟨before, after, heq⟩ := List.append_of_mem hs
  rw [heq, List.map_append, List.map_cons] at hn
  refine ⟨before, s, after, heq, fun s' hs' heq' => ?_, hname, hx⟩
  exact (List.nodup_append'.mp hn).2.2 (List.mem_map_of_mem hs')
    (heq'.trans hname.symm ▸ List.mem_cons_self)

end Database

namespace Graph

variable {g : Graph} {path : Path} {d : Diagnostic}

/-- A reference leads to the databases among the stores that its target includes at any depth, the
target among them. -/
def LeadsTo (g : Graph) (r : Reference .database) (d : Database) : Prop :=
  ∃ k n, r.target = some k ∧ Relation.ReflTransGen g.Includes k n ∧
    g.body? n = some (.database d)

def unknownStereotype (g : Graph) (path : Path) (s : Stereotype) : Diagnostic :=
  pointerFault .unknownStereotype
    ("profile `" ++ (g.referencePath s.profile.link).text ++ "` has no stereotype `" ++ s.name ++
      "`")
    path "annotated here" (g.referencePath s.profile.link) "profile declared here"

def unknownTag (g : Graph) (path : Path) (t : TaggedValue) : Diagnostic :=
  pointerFault .unknownTag
    ("profile `" ++ (g.referencePath t.profile.link).text ++ "` has no tag `" ++ t.tag ++ "`")
    path "tagged here" (g.referencePath t.profile.link) "profile declared here"

def unknownTable (g : Graph) (path : Path) (t : TablePointer) : Diagnostic :=
  pointerFault .unknownTable
    ("can't find table `" ++ t.schema ++ "." ++ t.table ++ "` in database `" ++
      (g.referencePath t.database.link).text ++ "`")
    path "table used here" (g.referencePath t.database.link) "database"

def unknownJoin (g : Graph) (path : Path) (j : JoinPointer) : Diagnostic :=
  pointerFault .unknownJoin
    ("can't find join `" ++ j.name ++ "` in database `" ++
      (g.referencePath j.database.link).text ++ "`")
    path "join used here" (g.referencePath j.database.link) "database"

/-- An annotation that the profile it is bound to does not declare. -/
inductive AnnotationFault (g : Graph) (path : Path) (a : Annotations) :
    AnnotationPlace → Diagnostic → Prop
  | stereotype {i : Nat} {s : Stereotype} {k : Handle} {p : Profile} : a.stereotypes[i]? = some s →
      s.profile.target = some k → g.body? k = some (.profile p) → s.name ∉ p.stereotypes →
      AnnotationFault g path a (.stereotype i) (g.unknownStereotype path s)
  | tag {i : Nat} {t : TaggedValue} {k : Handle} {p : Profile} : a.taggedValues[i]? = some t →
      t.profile.target = some k → g.body? k = some (.profile p) → t.tag ∉ p.tags →
      AnnotationFault g path a (.tag i) (g.unknownTag path t)

/-- A table that no database declares that its pointer leads to. -/
def LacksTable (g : Graph) (declares : Database → TablePointer → Prop) (t : TablePointer) : Prop :=
  t.database.isBound = true ∧ ∀ d, g.LeadsTo t.database d → ¬declares d t

def LacksJoin (g : Graph) (j : JoinPointer) : Prop :=
  j.database.isBound = true ∧ ∀ d, g.LeadsTo j.database d → ∀ x ∈ d.joins, x.name ≠ j.name

section Declares

variable (declares : Database → TablePointer → Prop)

inductive PointerFault (g : Graph) (path : Path) (o : RelationalOperation) :
    Pointer → Diagnostic → Prop
  | table {steps : List OperationStep} {t : TablePointer} : o.TableAt steps t →
      g.LacksTable declares t → PointerFault g path o (.table steps) (g.unknownTable path t)
  | join {steps : List OperationStep} {j : JoinPointer} : o.JoinAt steps j → g.LacksJoin j →
      PointerFault g path o (.join steps) (g.unknownJoin path j)

inductive BodyFault (g : Graph) (path : Path) (b : Body) : BodyPlace → Diagnostic → Prop
  | mark {item : Item} {a : Annotations} {place : AnnotationPlace} {d : Diagnostic} :
      b.Annotated item a → g.AnnotationFault path a place d →
      BodyFault g path b (.mark item place) d
  | mainTable {slot : Nat} {t : TablePointer} : b.MainTable slot t → g.LacksTable declares t →
      BodyFault g path b (.mainTable slot) (g.unknownTable path t)
  | pointer {place : OperationPlace} {o : RelationalOperation} {pointer : Pointer}
      {d : Diagnostic} : b.Computes place o → PointerFault declares g path o pointer d →
      BodyFault g path b (.pointer place pointer) d

/-- What is wrong at a place of an element that is alive, as it is told about the element. -/
def Fault (g : Graph) (place : Handle × BodyPlace) (d : Diagnostic) : Prop :=
  ∃ e, g.LiveAt place.1 e ∧ BodyFault declares g e.path e.body place.2 d

end Declares

theorem profile?_eq_some {r : Reference .profile} {p : Profile} :
    g.profile? r = some p ↔ ∃ k, r.target = some k ∧ g.body? k = some (.profile p) := by
  rw [profile?]
  cases r.target with
  | none => simp
  | some k =>
    rw [Option.bind_some]
    cases hb : g.body? k with
    | none => simp [hb]
    | some b => cases b <;> simp [hb]

theorem bind_profile?_eq_some {r : Reference .profile} {c : Profile → Bool} {fault : Diagnostic} :
    ((g.profile? r).bind fun p => if c p then none else some fault) = some d ↔
      (∃ k p, r.target = some k ∧ g.body? k = some (.profile p) ∧ c p = false) ∧ fault = d := by
  rw [Option.bind_eq_some_iff]
  constructor
  · rintro ⟨p, hp, hd⟩
    obtain ⟨hc, hd⟩ := Option.ite_none_left_eq_some.mp hd
    obtain ⟨k, hk, hb⟩ := profile?_eq_some.mp hp
    exact ⟨⟨k, p, hk, hb, Bool.eq_false_iff.mpr hc⟩, Option.some.inj hd⟩
  · rintro ⟨⟨k, p, hk, hb, hc⟩, rfl⟩
    exact ⟨p, profile?_eq_some.mpr ⟨k, hk, hb⟩, if_neg (Bool.eq_false_iff.mp hc)⟩

theorem stereotypeFault?_eq_some {s : Stereotype} : g.stereotypeFault? path s = some d ↔
    (∃ k p, s.profile.target = some k ∧ g.body? k = some (.profile p) ∧
      p.hasStereotype s.name = false) ∧ g.unknownStereotype path s = d := by
  rw [← bind_profile?_eq_some, stereotypeFault?]
  cases g.profile? s.profile <;> rfl

theorem tagFault?_eq_some {t : TaggedValue} : g.tagFault? path t = some d ↔
    (∃ k p, t.profile.target = some k ∧ g.body? k = some (.profile p) ∧
      p.hasTag t.tag = false) ∧ g.unknownTag path t = d := by
  rw [← bind_profile?_eq_some, tagFault?]
  cases g.profile? t.profile <;> rfl

theorem inventory_annotationFaults (g : Graph) (path : Path) (a : Annotations) :
    Inventory (g.AnnotationFault path a) (g.annotationFaults path a) := by
  have hstereotypes := ((Inventory.getElem? a.stereotypes).filterMap
    (g.stereotypeFault? path)).reindex fun _ _ => AnnotationPlace.stereotype.inj
  have htags := ((Inventory.getElem? a.taggedValues).filterMap
    (g.tagFault? path)).reindex fun _ _ => AnnotationPlace.tag.inj
  refine (hstereotypes.append htags ?_).congr fun place d => ⟨?_, ?_⟩
  · rintro _ _ _ ⟨i, rfl, -⟩ ⟨j, heq, -⟩
    cases heq
  · rintro (⟨i, rfl, s, hs, hd⟩ | ⟨i, rfl, t, ht, hd⟩)
    · obtain ⟨⟨k, p, hk, hb, hn⟩, rfl⟩ := stereotypeFault?_eq_some.mp hd
      exact .stereotype hs hk hb (by simpa [Profile.hasStereotype] using hn)
    · obtain ⟨⟨k, p, hk, hb, hn⟩, rfl⟩ := tagFault?_eq_some.mp hd
      exact .tag ht hk hb (by simpa [Profile.hasTag] using hn)
  · intro h
    cases h with
    | stereotype hs hk hb hn =>
      refine .inl ⟨_, rfl, _, hs, stereotypeFault?_eq_some.mpr ⟨⟨_, _, hk, hb, ?_⟩, rfl⟩⟩
      simpa [Profile.hasStereotype] using hn
    | tag ht hk hb hn =>
      refine .inr ⟨_, rfl, _, ht, tagFault?_eq_some.mpr ⟨⟨_, _, hk, hb, ?_⟩, rfl⟩⟩
      simpa [Profile.hasTag] using hn

section Anchored

variable (a : g.Anchored)
include a

theorem bind_databases?_eq_some {r : Reference .database} {c : Database → Bool}
    {fault : Diagnostic} :
    ((g.databases? r).bind fun databases => if databases.any c then none else some fault) = some d ↔
      (r.isBound = true ∧ ∀ d, g.LeadsTo r d → c d = false) ∧ fault = d := by
  rw [databases?_eq, Reference.isBound]
  cases ht : r.target with
  | none => simp
  | some k =>
    have hmem (d : Database) : (d ∈ (g.storeClosure k).filterMap fun s =>
        (g.body? s).bind Body.database?) ↔ g.LeadsTo r d := by
      rw [List.mem_filterMap]
      constructor
      · rintro ⟨n, hn, hd⟩
        obtain ⟨b, hb, hd⟩ := Option.bind_eq_some_iff.mp hd
        cases b with
        | database d' =>
          cases hd
          exact ⟨k, n, ht, a.mem_storeClosure.mp hn, hb⟩
        | _ => cases hd
      · rintro ⟨k', n, hk, hn, hb⟩
        obtain rfl := Option.some.inj (ht.symm.trans hk)
        exact ⟨n, a.mem_storeClosure.mpr hn, by rw [hb]; rfl⟩
    rw [Option.map_some, Option.bind_some, Option.ite_none_left_eq_some, Option.some_inj,
      Bool.not_eq_true, List.any_eq_false]
    simp only [hmem, Bool.not_eq_true, Option.isSome_some, true_and]

theorem tableFault?_eq_some {t : TablePointer} : g.tableFault? path t = some d ↔
    g.LacksTable Database.DeclaresFirst t ∧ g.unknownTable path t = d := by
  have hlacks : g.LacksTable Database.DeclaresFirst t ↔ t.database.isBound = true ∧
      ∀ d, g.LeadsTo t.database d → (d.table? t.schema t.table).isSome = false := by
    simp only [LacksTable, ← Database.isSome_table?_iff, Bool.not_eq_true]
  rw [hlacks, ← bind_databases?_eq_some a, tableFault?]
  cases g.databases? t.database <;> rfl

theorem joinFault?_eq_some {j : JoinPointer} : g.joinFault? path j = some d ↔
    g.LacksJoin j ∧ g.unknownJoin path j = d := by
  have hlacks : g.LacksJoin j ↔ j.database.isBound = true ∧
      ∀ d, g.LeadsTo j.database d → d.hasJoin j.name = false := by
    simp [LacksJoin, Database.hasJoin]
  rw [hlacks, ← bind_databases?_eq_some a, joinFault?]
  cases g.databases? j.database <;> rfl

theorem inventory_operationFaults (path : Path) (o : RelationalOperation) :
    Inventory (PointerFault Database.DeclaresFirst g path o) (g.operationFaults path o) := by
  have htables := (o.inventory_tables.filterMap (g.tableFault? path)).reindex
    fun _ _ => Pointer.table.inj
  have hjoins := (o.inventory_joins.filterMap (g.joinFault? path)).reindex
    fun _ _ => Pointer.join.inj
  refine (htables.append hjoins ?_).congr fun pointer d => ⟨?_, ?_⟩
  · rintro _ _ _ ⟨i, rfl, -⟩ ⟨j, heq, -⟩
    cases heq
  · rintro (⟨steps, rfl, t, ht, hd⟩ | ⟨steps, rfl, j, hj, hd⟩)
    · obtain ⟨hl, rfl⟩ := (tableFault?_eq_some a).mp hd
      exact .table ht hl
    · obtain ⟨hl, rfl⟩ := (joinFault?_eq_some a).mp hd
      exact .join hj hl
  · intro h
    cases h with
    | table ht hl => exact .inl ⟨_, rfl, _, ht, (tableFault?_eq_some a).mpr ⟨hl, rfl⟩⟩
    | join hj hl => exact .inr ⟨_, rfl, _, hj, (joinFault?_eq_some a).mpr ⟨hl, rfl⟩⟩

theorem inventory_bodyFaults (path : Path) (b : Body) :
    Inventory (BodyFault Database.DeclaresFirst g path b) (g.bodyFaults path b) := by
  have hmark : Function.Injective
      fun k : Item × AnnotationPlace => BodyPlace.mark k.1 k.2 :=
    fun _ _ heq => Prod.ext (BodyPlace.mark.inj heq).1 (BodyPlace.mark.inj heq).2
  have hpointer : Function.Injective
      fun k : OperationPlace × Pointer => BodyPlace.pointer k.1 k.2 :=
    fun _ _ heq => Prod.ext (BodyPlace.pointer.inj heq).1 (BodyPlace.pointer.inj heq).2
  have hannotations := (b.inventory_annotated.flatMap
    fun x _ => g.inventory_annotationFaults path x).reindex hmark
  have htables := (b.inventory_mainTable.filterMap (g.tableFault? path)).reindex
    fun _ _ => BodyPlace.mainTable.inj
  have hpointers := (b.inventory_computes.flatMap
    fun o _ => inventory_operationFaults a path o).reindex hpointer
  refine ((hannotations.append htables ?_).append hpointers ?_).congr fun place d => ⟨?_, ?_⟩
  · rintro _ _ _ ⟨k, rfl, -⟩ ⟨i, heq, -⟩
    cases heq
  · rintro _ _ _ (⟨k, rfl, -⟩ | ⟨i, rfl, -⟩) ⟨k', heq, -⟩
    · cases heq
    · cases heq
  · rintro ((⟨k, rfl, x, hx, hd⟩ | ⟨i, rfl, t, ht, hd⟩) | ⟨k, rfl, o, ho, hd⟩)
    · exact .mark hx hd
    · obtain ⟨hl, rfl⟩ := (tableFault?_eq_some a).mp hd
      exact .mainTable ht hl
    · exact .pointer ho hd
  · intro h
    cases h with
    | mark hx hd => exact .inl (.inl ⟨(_, _), rfl, _, hx, hd⟩)
    | mainTable ht hl =>
      exact .inl (.inr ⟨_, rfl, _, ht, (tableFault?_eq_some a).mpr ⟨hl, rfl⟩⟩)
    | pointer ho hd => exact .inr ⟨(_, _), rfl, _, ho, hd⟩

end Anchored

theorem inventory_live (w : g.WellFormed) :
    Inventory (fun h (x : Handle × Element) => x.1 = h ∧ g.LiveAt h x.2) g.live := by
  refine ⟨g.live.map fun x => (x.1, x), ?_, ?_, ?_⟩
  · rw [List.map_map]
    exact List.map_id _
  · rw [List.map_map, List.Nodup, List.pairwise_map]
    refine (pairwise_live w).imp_of_mem fun {x y} hx hy hne heq => ?_
    have hx := (mem_live w).mp hx
    have hy := (mem_live w).mp hy
    change x.1 = y.1 at heq
    rw [heq] at hx
    exact hne (congrArg Element.path (hx.unique hy))
  · rintro h ⟨h', e⟩
    rw [List.mem_map]
    constructor
    · rintro ⟨x, hx, heq⟩
      cases heq
      exact ⟨rfl, (mem_live w).mp hx⟩
    · rintro ⟨rfl, hl⟩
      exact ⟨(h', e), (mem_live w).mpr hl, rfl⟩

theorem inventory_validate (w : g.WellFormed) (a : g.Anchored) :
    Inventory (Fault Database.DeclaresFirst g) g.validate := by
  refine ((inventory_live w).flatMap
    fun x _ => inventory_bodyFaults a x.2.path x.2.body).congr fun place d => ⟨?_, ?_⟩
  · rintro ⟨x, ⟨-, hl⟩, hd⟩
    exact ⟨x.2, hl, hd⟩
  · rintro ⟨e, hl, hd⟩
    exact ⟨(place.1, e), ⟨rfl, hl⟩, hd⟩

section Notions

variable {declares declares' : Database → TablePointer → Prop}

theorem LacksTable.imp {t : TablePointer} (l : g.LacksTable declares t)
    (h : ∀ k d, g.body? k = some (.database d) → declares' d t → declares d t) :
    g.LacksTable declares' t := by
  refine ⟨l.1, fun d hd hdeclares => ?_⟩
  obtain ⟨k, n, hk, hn, hb⟩ := hd
  exact l.2 d ⟨k, n, hk, hn, hb⟩ (h n d hb hdeclares)

theorem Fault.imp {place : Handle × BodyPlace} (f : Fault declares g place d)
    (h : ∀ k d t, g.body? k = some (.database d) → declares' d t → declares d t) :
    Fault declares' g place d := by
  obtain ⟨e, hl, hd⟩ := f
  refine ⟨e, hl, ?_⟩
  generalize place.2 = place at hd
  cases hd with
  | mark hx hd => exact .mark hx hd
  | mainTable ht hlacks => exact .mainTable ht (hlacks.imp fun k d => h k d _)
  | pointer ho hd =>
    refine .pointer ho ?_
    cases hd with
    | table ht hlacks => exact .table ht (hlacks.imp fun k d => h k d _)
    | join hj hlacks => exact .join hj hlacks

end Notions

/-- Whatever stands in a body is bound to an element of its family. -/
def Binding (g : Graph) (b : Body) : Prop :=
  ∀ l, b.Holds l → ∃ t x, l.target = some t ∧ g.element? t = some x ∧
    l.family.admits x.body = true

/-- Nothing in a body is passed over: what its annotations are bound to are profiles, and its
pointers are bound. -/
structure Checked (g : Graph) (b : Body) : Prop where
  stereotype : ∀ item x, b.Annotated item x → ∀ s ∈ x.stereotypes,
    ∃ k p, s.profile.target = some k ∧ g.body? k = some (.profile p)
  tag : ∀ item x, b.Annotated item x → ∀ t ∈ x.taggedValues,
    ∃ k p, t.profile.target = some k ∧ g.body? k = some (.profile p)
  mainTable : ∀ slot t, b.MainTable slot t → t.database.isBound = true
  table : ∀ place o, b.Computes place o → ∀ steps t, o.TableAt steps t →
    t.database.isBound = true
  join : ∀ place o, b.Computes place o → ∀ steps j, o.JoinAt steps j → j.database.isBound = true

theorem Binding.checked {b : Body} (h : g.Binding b) : g.Checked b := by
  have hprofile (r : Reference .profile) (hr : b.Holds r.link) :
      ∃ k p, r.target = some k ∧ g.body? k = some (.profile p) := by
    obtain ⟨k, x, ht, hx, ha⟩ := h _ hr
    cases hb : x.body with
    | profile p => exact ⟨k, p, ht, by rw [body?, hx, Option.map_some, hb]⟩
    | _ =>
      rw [hb] at ha
      cases ha
  have hbound (r : Reference .database) (hr : b.Holds r.link) : r.isBound = true := by
    obtain ⟨k, x, ht, -⟩ := h _ hr
    exact Option.isSome_of_eq_some ht
  exact {
    stereotype := fun item x hx s hs => hprofile _ (hx.holds (.stereotype hs))
    tag := fun item x hx t ht => hprofile _ (hx.holds (.taggedValue ht))
    mainTable := fun slot t ht => hbound _ ht.holds
    table := fun place o ho steps t ht => hbound _ (ho.holds ht.holds)
    join := fun place o ho steps j hj => hbound _ (ho.holds hj.holds) }

/-- The validation of a graph tells all that is wrong with it, each fault once and nothing else: the
annotations that their profile does not declare, and the tables and joins that no database has that
their pointer leads to, wherever they stand. Of schemas that have one name in one database it looks
at the first only, so that it misses no fault, and tells others only where a name comes twice.
Nothing is passed over where references are bound. -/
theorem validate_lists_faults {r : Registry} (hr : r.OnlyRemoves) (k : Kept r g) :
    Inventory (Fault Database.DeclaresFirst g) g.validate ∧
      (∀ place d, Fault Database.Declares g place d → Fault Database.DeclaresFirst g place d) ∧
      ((∀ h d, g.body? h = some (.database d) → (d.schemas.map Schema.name).Nodup) →
        Inventory (Fault Database.Declares g) g.validate) ∧
      ∀ h e, g.LiveAt h e → g.Binding e.body → g.Checked e.body := by
  have hall := inventory_validate k.wellFormed (k.anchored hr)
  have hmore (place : Handle × BodyPlace) (d : Diagnostic)
      (hf : Fault Database.Declares g place d) : Fault Database.DeclaresFirst g place d :=
    hf.imp fun _ _ _ _ hd => hd.declares
  refine ⟨hall, hmore, fun hn => hall.congr fun place d => ⟨fun hf => ?_, hmore place d⟩,
    fun _ _ _ hb => hb.checked⟩
  exact hf.imp fun h d _ hb hd => hd.declaresFirst (hn h d hb)

theorem body_eq_or_slot_eq (hsize : g.elements.size = 13)
    (hprimitive : ∀ i < 12, (g.body? ⟨i⟩).map Body.kind = some .primitiveType) {h : Handle}
    {b : Body} (hb : g.body? h = some b) : b = .primitiveType ∨ h = ⟨12⟩ := by
  obtain ⟨e, he, rfl⟩ := Option.map_eq_some_iff.mp hb
  have hlt := slot_lt_of_element? he
  rw [hsize, Nat.lt_succ_iff_lt_or_eq] at hlt
  rcases hlt with hlt | heq
  · have hkind := hprimitive h.slot hlt
    rw [hb, Option.map_some, Option.some_inj] at hkind
    refine .inl ?_
    generalize e.body = b at hkind
    cases b with
    | primitiveType => rfl
    | _ => cases hkind
  · exact .inr (congrArg Handle.mk heq)

/-- A database with one table, and a join that names another table and another join. -/
def faultyStore : Graph :=
  Change.resolve.run ((Change.create ⟨"A"⟩ (.database {
      schemas := [{ name := "s", tables := [{ name := "t" }] }]
      joins := [{
        name := "j"
        operation := .call "equal" [
          .column ⟨.ofText "A", "s", "t"⟩ "t" "c",
          .joined [⟨.ofText "A", "k", none⟩] (some (.column ⟨.ofText "A", "s", "u"⟩ "u" "c"))] }] }
    )).run (new Preset.full))

theorem kept_faultyStore : Kept Preset.full faultyStore :=
  (Kept.new.create ⟨"A"⟩ rfl (by decide)).change (c := .resolve) trivial trivial trivial

theorem validate_lists_faults_store : ∃ table join, table ≠ join ∧
    Fault Database.Declares faultyStore table
      (faultyStore.unknownTable ⟨"A"⟩ ⟨.bound ⟨"A"⟩ ⟨12⟩, "s", "u"⟩) ∧
    Fault Database.Declares faultyStore join
      (faultyStore.unknownJoin ⟨"A"⟩ ⟨.bound ⟨"A"⟩ ⟨12⟩, "k", none⟩) := by
  obtain ⟨-, -, hlists, -⟩ :=
    validate_lists_faults (onlyRemoves_presets Preset.registry_all) kept_faultyStore
  have hdistinct (h : Handle) (d : Database) (hb : faultyStore.body? h = some (.database d)) :
      (d.schemas.map Schema.name).Nodup := by
    rcases body_eq_or_slot_eq rfl (by decide) hb with hp | rfl
    · cases hp
    · have hnames : ((faultyStore.body? ⟨12⟩).bind Body.database?).map
          (fun d => d.schemas.map Schema.name) = some ["s"] := rfl
      rw [hb] at hnames
      have hnames : d.schemas.map Schema.name = ["s"] := Option.some.inj hnames
      exact hnames ▸ List.nodup_singleton "s"
  have hvalidate : faultyStore.validate =
      [faultyStore.unknownTable ⟨"A"⟩ ⟨.bound ⟨"A"⟩ ⟨12⟩, "s", "u"⟩,
        faultyStore.unknownJoin ⟨"A"⟩ ⟨.bound ⟨"A"⟩ ⟨12⟩, "k", none⟩] := rfl
  obtain ⟨found, hfound, hn, hmem⟩ := hlists hdistinct
  rw [hvalidate, List.map_eq_cons_iff] at hfound
  obtain ⟨⟨table, _⟩, rest, rfl, rfl, hfound⟩ := hfound
  obtain ⟨⟨join, _⟩, rfl, rfl⟩ := List.map_eq_singleton_iff.mp hfound
  have hne : table ≠ join := by simpa using hn
  exact ⟨table, join, hne, (hmem _ _).mp List.mem_cons_self,
    (hmem _ _).mp (List.mem_cons_of_mem _ List.mem_cons_self)⟩

/-- A database with two schemas of one name, and a join on a table of the second. -/
def twinDatabase (database : Reference .database) : Database where
  schemas := [{ name := "s" }, { name := "s", tables := [{ name := "t" }] }]
  joins := [{ name := "j", operation := .column ⟨database, "s", "t"⟩ "t" "c" }]

def twinSchemas : Graph :=
  Change.resolve.run
    ((Change.create ⟨"A"⟩ (.database (twinDatabase (.ofText "A")))).run (new Preset.full))

/-- All references are bound and the only table that is named is declared, but it is told that it
can't be found. -/
theorem declared_table_told : (∀ h e, twinSchemas.LiveAt h e → twinSchemas.Binding e.body) ∧
    (∀ place d, ¬Fault Database.Declares twinSchemas place d) ∧
    twinSchemas.validate = [twinSchemas.unknownTable ⟨"A"⟩ ⟨.bound ⟨"A"⟩ ⟨12⟩, "s", "t"⟩] := by
  have hdatabase : twinSchemas.body? ⟨12⟩ =
      some (.database (twinDatabase (.bound ⟨"A"⟩ ⟨12⟩))) := rfl
  have hcases {h : Handle} {e : Element} (hl : twinSchemas.LiveAt h e) :
      e.body = .primitiveType ∨ e.body = .database (twinDatabase (.bound ⟨"A"⟩ ⟨12⟩)) := by
    have hb : twinSchemas.body? h = some e.body := by rw [body?, hl.1, Option.map_some]
    refine (body_eq_or_slot_eq rfl (by decide) hb).imp_right fun heq => ?_
    rw [heq, hdatabase] at hb
    exact (Option.some.inj hb).symm
  refine ⟨fun h e hl l hh => ?_, ?_, rfl⟩
  · rcases hcases hl with hp | hp
    · rw [hp] at hh
      cases hh
    · rw [hp] at hh
      obtain ⟨x, hx, hbody⟩ := Option.map_eq_some_iff.mp hdatabase
      rcases hh with _ | _ | _ | _ | ⟨hr | ⟨hj, ho⟩⟩
      · cases hr
      · obtain rfl := List.mem_singleton.mp hj
        cases ho
        exact ⟨⟨12⟩, x, rfl, hx, by rw [hbody]; rfl⟩
  · rintro ⟨h, place⟩ d ⟨e, hl, hd⟩
    change BodyFault Database.Declares twinSchemas e.path e.body place d at hd
    rcases hcases hl with hp | hp
    · rw [hp] at hd
      cases hd with
      | mark hx _ => cases hx
      | mainTable ht _ => cases ht
      | pointer ho _ => cases ho
    · rw [hp] at hd
      cases hd with
      | mark hx _ => cases hx
      | mainTable ht _ => cases ht
      | pointer ho hf =>
        cases ho with
        | join hj =>
          obtain rfl := List.mem_singleton.mp (List.mem_of_getElem? hj)
          cases hf with
          | table ht hlacks =>
            cases ht
            exact hlacks.2 _ ⟨⟨12⟩, ⟨12⟩, rfl, .refl, hdatabase⟩
              ⟨_, List.mem_cons_of_mem _ List.mem_cons_self, rfl, _, List.mem_cons_self, rfl⟩
          | join hj _ => cases hj

end Graph
end ModelGraph
