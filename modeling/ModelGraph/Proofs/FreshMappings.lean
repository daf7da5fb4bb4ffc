import ModelGraph.Proofs.FittingSlots

namespace ModelGraph

open Record Json

/-- Only embedded set implementations take a slot, and nothing is wired. -/
inductive PropertyMappingDocument.IsFresh : PropertyMappingDocument → Prop where
  | plain {p : PropertyMapping} (outer : p.embedded? = none) (unwired : p.producer = none) :
    IsFresh (.plain p)
  | embedded {owner property source id target root properties}
    (inner : ∀ d ∈ properties, IsFresh d) :
    IsFresh (.embedded owner property source id target root properties)

inductive ClassMappingDocument.IsFresh : ClassMappingDocument → Prop where
  | pureInstance {header source filter properties}
    (inner : ∀ d ∈ properties, PropertyMappingDocument.IsFresh d) :
    IsFresh (.pureInstance header source filter properties)
  | relational {header distinct mainTable primaryKey properties}
    (inner : ∀ d ∈ properties, PropertyMappingDocument.IsFresh d) :
    IsFresh (.relational header distinct mainTable primaryKey properties)
  | aggregationAware {header main aggregates properties} (main_fresh : IsFresh main)
    (aggregates_fresh : ∀ a ∈ aggregates, IsFresh a.2.2)
    (inner : ∀ d ∈ properties, PropertyMappingDocument.IsFresh d) :
    IsFresh (.aggregationAware header main aggregates properties)
  | operation {header operation parameters} : IsFresh (.operation header operation parameters)

namespace PropertyMappingDocument

theorem isFresh_of_read {fuel : Nat} {j : Json} {d : PropertyMappingDocument}
    (h : read fuel j = some d) : d.IsFresh := by
  induction fuel generalizing j d with
  | zero => cases h
  | succ fuel ih =>
    obtain ⟨⟨tag, document⟩, -, h⟩ := bind_eq_some.mp h
    simp only at h
    split at h
    · simp only [bind_eq_some, pure_eq_some] at h
      obtain ⟨r, -, p, -, source, -, target, -, enum, -, transform, -, explode, -, rfl⟩ := h
      exact .plain rfl rfl
    · simp only [bind_eq_some, pure_eq_some] at h
      obtain ⟨r, -, p, -, source, -, target, -, enum, -, operation, -, rfl⟩ := h
      exact .plain rfl rfl
    · simp only [bind_eq_some, pure_eq_some, list_eq] at h
      obtain ⟨r, -, p, -, source, -, id, -, target, -, root, -, properties, hps, rfl⟩ := h
      refine .embedded fun d hd => ?_
      obtain ⟨i, hi⟩ := mem_of_list hps d hd
      exact ih hi
    · cases h

theorem isFresh_of_list {o : Option Json} {ds : List PropertyMappingDocument}
    (h : readDefault [] (list? ofJson?) o = some ds) : ∀ d ∈ ds, d.IsFresh := by
  intro d hd
  obtain ⟨i, hi⟩ := mem_of_list h d hd
  exact isFresh_of_read hi

end PropertyMappingDocument

theorem ClassMappingDocument.isFresh_of_read {fuel : Nat} {nested : Bool} {j : Json}
    {d : ClassMappingDocument} (h : read fuel nested j = some d) : d.IsFresh := by
  induction fuel generalizing nested j d with
  | zero => cases h
  | succ fuel ih =>
    obtain ⟨⟨tag, document⟩, -, h⟩ := bind_eq_some.mp h
    simp only at h
    split at h
    · simp only [bind_eq_some, pure_eq_some, list_eq] at h
      obtain ⟨r, -, header, -, source, -, filter, -, properties, hp, rfl⟩ := h
      exact .pureInstance (PropertyMappingDocument.isFresh_of_list hp)
    · simp only [bind_eq_some, pure_eq_some, list_eq] at h
      obtain ⟨r, -, header, -, distinct, -, table, -, key, -, properties, hp, rfl⟩ := h
      exact .relational (PropertyMappingDocument.isFresh_of_list hp)
    · change readAggregation fuel document = some d at h
      simp only [readAggregation, bind_eq_some, pure_eq_some, required_eq, list_eq] at h
      obtain ⟨r, -, header, -, main, hmain, aggregates, ha, properties, hp, rfl⟩ := h
      refine .aggregationAware ?_ ?_ (PropertyMappingDocument.isFresh_of_list hp)
      · obtain ⟨i, -, hi⟩ := Option.bind_eq_some_iff.mp hmain
        exact ih hi
      · intro a hmem
        obtain ⟨i, hi⟩ := mem_of_list ha a hmem
        simp only [readAggregate, bind_eq_some, pure_eq_some] at hi
        obtain ⟨t, -, number, -, specification, -, d, hd, rfl⟩ := hi
        obtain ⟨i, -, hi⟩ := Option.bind_eq_some_iff.mp hd
        exact ih hi
    · simp only [bind_eq_some, pure_eq_some, texts_eq] at h
      obtain ⟨r, -, header, -, name, -, parameters, -, rfl⟩ := h
      exact .operation
    · cases h

def SetImplementation.IsUnwired (s : SetImplementation) : Prop :=
  (∀ p ∈ s.properties, p.producer = none) ∧ ∀ p ∈ s.parameters, p.producer = none

theorem perm_interchange {α : Type} (as bs cs ds : List α) :
    ((as ++ bs) ++ (cs ++ ds)).Perm ((as ++ cs) ++ (bs ++ ds)) := by
  rw [List.append_assoc, List.append_assoc]
  exact .append_left as (List.perm_append_comm_assoc bs cs ds)

namespace Mapping

variable {m m' m'' : Mapping} {s : SetImplementation} {loose loose' : List Nat}

/-- The mapping has taken further slots, in which nothing is wired. Each of them is either loose or
held by exactly one of them. -/
def Takes (m m' : Mapping) (loose : List Nat) : Prop :=
  ∃ more, m' = { m with slots := m.slots ++ more } ∧
    (loose ++ more.flatMap SetImplementation.inner).Perm
      (List.range' m.slots.length more.length) ∧
    ∀ s ∈ more, s.IsUnwired

theorem Takes.refl (m : Mapping) : m.Takes m [] :=
  ⟨[], by simp, .nil, fun _ hs => absurd hs List.not_mem_nil⟩

theorem Takes.perm (h : m.Takes m' loose) (hp : loose.Perm loose') : m.Takes m' loose' := by
  obtain ⟨more, rfl, hmore, hu⟩ := h
  exact ⟨more, rfl, (hp.symm.append_right _).trans hmore, hu⟩

theorem Takes.trans (h : m.Takes m' loose) (h' : m'.Takes m'' loose') :
    m.Takes m'' (loose ++ loose') := by
  obtain ⟨more, rfl, hmore, hu⟩ := h
  obtain ⟨more', rfl, hmore', hu'⟩ := h'
  refine ⟨more ++ more', by simp, ?_, fun s hs => (List.mem_append.mp hs).elim (hu s) (hu' s)⟩
  rw [List.flatMap_append, List.length_append, ← List.range'_append_1]
  rw [List.length_append] at hmore'
  exact (perm_interchange _ _ _ _).trans (hmore.append hmore')

theorem Takes.addSlot (h : m.Takes m' s.inner) (hs : s.IsUnwired) :
    m.Takes (m'.addSlot s) [m'.slots.length] := by
  obtain ⟨more, rfl, hmore, hu⟩ := h
  refine ⟨more ++ [s], by simp [Mapping.addSlot], ?_, ?_⟩
  · rw [List.flatMap_append, List.flatMap_singleton, List.length_append, List.length_append,
      List.length_singleton, List.range'_1_concat]
    exact List.perm_append_comm.trans ((List.perm_append_comm.trans hmore).append_right _)
  · intro t ht
    rcases List.mem_append.mp ht with ht | ht
    · exact hu t ht
    · exact List.mem_singleton.mp ht ▸ hs

end Mapping

open Mapping

namespace PropertyMappingDocument

/-- A fresh document takes slots, and its property mapping holds the one that is loose. -/
def Spreads (d : PropertyMappingDocument) : Prop :=
  ∀ m, m.Takes (d.intern m).2 (d.intern m).1.embedded?.toList ∧ (d.intern m).1.producer = none

theorem spreads_all {ds : List PropertyMappingDocument} (h : ∀ d ∈ ds, d.Spreads) (m : Mapping) :
    m.Takes (internAll ds m).2 ((internAll ds m).1.filterMap PropertyMapping.embedded?) ∧
      ∀ p ∈ (internAll ds m).1, p.producer = none := by
  induction ds generalizing m with
  | nil => exact ⟨.refl m, fun _ hp => absurd hp List.not_mem_nil⟩
  | cons d ds ih =>
    obtain ⟨hd, hu⟩ := h d List.mem_cons_self m
    obtain ⟨hds, hus⟩ := ih (fun e he => h e (List.mem_cons_of_mem _ he)) (d.intern m).2
    rw [internAll]
    refine ⟨?_, List.forall_mem_cons.mpr ⟨hu, hus⟩⟩
    have htakes := hd.trans hds
    cases he : (d.intern m).1.embedded? with
    | none => simpa [he] using htakes
    | some index => simpa [he] using htakes

theorem IsFresh.spreads {d : PropertyMappingDocument} (h : d.IsFresh) : d.Spreads := by
  induction h with
  | plain outer unwired =>
    intro m
    refine ⟨?_, unwired⟩
    rw [intern, outer]
    exact .refl _
  | @embedded owner property source id target root properties inner ih =>
    intro m
    obtain ⟨htakes, hu⟩ := spreads_all ih m
    rw [intern]
    refine ⟨.addSlot ?_ ⟨hu, fun p hp => absurd hp List.not_mem_nil⟩, rfl⟩
    simpa [SetImplementation.inner, SetImplementation.properties] using htakes

end PropertyMappingDocument

namespace ClassMappingDocument

open PropertyMappingDocument

/-- A fresh document takes slots, and its set implementation holds those that are loose. -/
def Spreads (d : ClassMappingDocument) : Prop :=
  ∀ {m m' s}, d.intern m = .ok (s, m') → m.Takes m' s.inner ∧ s.IsUnwired

theorem spreads_aggregates {as : List (Nat × AggregationSpecification × ClassMappingDocument)}
    (h : ∀ a ∈ as, a.2.2.Spreads) {m m' : Mapping} {aggregates : List Aggregate}
    (hi : internAggregates as m = .ok (aggregates, m')) :
    m.Takes m' (aggregates.map Aggregate.slot) := by
  induction as generalizing m aggregates with
  | nil =>
    cases hi
    exact .refl _
  | cons a as ih =>
    obtain ⟨index, specification, d⟩ := a
    obtain ⟨s, inner, rest, hd, hr, rfl⟩ := internAggregates_cons_eq_ok hi
    obtain ⟨htakes, hu⟩ := h _ List.mem_cons_self hd
    exact (htakes.addSlot hu).trans (ih (fun b hb => h b (List.mem_cons_of_mem _ hb)) hr)

theorem IsFresh.spreads {d : ClassMappingDocument} (h : d.IsFresh) : d.Spreads := by
  induction h with
  | pureInstance inner =>
    intro m m' s hi
    obtain ⟨htakes, hu⟩ := spreads_all (fun d hd => (inner d hd).spreads) m
    rw [intern] at hi
    cases hi
    refine ⟨?_, hu, fun p hp => absurd hp List.not_mem_nil⟩
    rw [SetImplementation.inner]
    exact htakes.perm (.of_eq (List.append_nil _).symm)
  | relational inner =>
    intro m m' s hi
    obtain ⟨htakes, hu⟩ := spreads_all (fun d hd => (inner d hd).spreads) m
    rw [intern] at hi
    cases hi
    refine ⟨?_, hu, fun p hp => absurd hp List.not_mem_nil⟩
    rw [SetImplementation.inner]
    exact htakes.perm (.of_eq (List.append_nil _).symm)
  | @aggregationAware header main as properties _ _ inner ihMain ihAggregates =>
    intro m m' s hi
    obtain ⟨first, mMain, aggregates, mAggregates, hmi, has, rfl, rfl⟩ :=
      intern_aggregationAware_eq_ok hi
    obtain ⟨hmain, hu⟩ := ihMain hmi
    have haggregates := spreads_aggregates ihAggregates has
    obtain ⟨hproperties, hus⟩ := spreads_all (fun d hd => (inner d hd).spreads) mAggregates
    refine ⟨?_, hus, fun p hp => absurd hp List.not_mem_nil⟩
    -- the properties come last in the mapping, and first among what is held
    exact (((hmain.addSlot hu).trans haggregates).trans hproperties).perm List.perm_append_comm
  | @operation header name parameters =>
    intro m m' s hi
    obtain ⟨o, -, rfl, rfl⟩ := intern_operation_eq_ok hi
    refine ⟨.refl m', fun p hp => absurd hp List.not_mem_nil, ?_⟩
    intro p hp
    obtain ⟨id, -, rfl⟩ := List.mem_map.mp hp
    rfl

end ClassMappingDocument

namespace Mapping

/-- Every slot of the mapping is at the top or is held by one other slot, and nothing is wired. -/
structure IsFresh (m : Mapping) : Prop where
  once : (m.top ++ m.slots.flatMap SetImplementation.inner).Perm (List.range m.slots.length)
  unwired : ∀ s ∈ m.slots, s.IsUnwired

variable {m m' : Mapping} {s : SetImplementation}

theorem isFresh_empty (includes : List (Reference .mapping)) : IsFresh { includes } :=
  ⟨.nil, fun _ hs => absurd hs List.not_mem_nil⟩

theorem IsFresh.addTop (hm : m.IsFresh) (h : m.Takes m' s.inner) (hs : s.IsUnwired) :
    (m'.addTop s).IsFresh := by
  obtain ⟨more, he, hp, hus⟩ := h.addSlot hs
  have htop : m'.top = m.top := by simpa [Mapping.addSlot] using congrArg Mapping.top he
  have hslots : (m'.addSlot s).slots = m.slots ++ more := congrArg Mapping.slots he
  refine ⟨?_, ?_⟩
  · rw [Mapping.addTop, htop, hslots, List.flatMap_append, List.length_append, List.range_eq_range',
      ← List.range'_append_1, ← List.range_eq_range', Nat.zero_add]
    exact (perm_interchange _ _ _ _).trans (hm.once.append hp)
  · intro t ht
    rw [Mapping.addTop, hslots] at ht
    exact (List.mem_append.mp ht).elim (hm.unwired t) (hus t)

end Mapping

namespace Entry

variable {r : Registry} {path : Path} {m m' : Mapping} {s : SetImplementation}

theorem takes_of_classMapping {j : Json} (h : classMapping r path j m = .ok (s, m')) :
    m.Takes m' s.inner ∧ s.IsUnwired := by
  simp only [classMapping] at h
  split at h
  · obtain ⟨d, hd, h⟩ := bind_eq_ok.mp h
    exact (ClassMappingDocument.isFresh_of_read (require_eq_ok.mp hd)).spreads (ok_of_mapError h)
  · split at h
    · cases h
    · obtain ⟨header, -, h⟩ := bind_eq_ok.mp h
      obtain ⟨content, -, h⟩ := bind_eq_ok.mp h
      cases h
      exact ⟨.refl m, fun p hp => absurd hp List.not_mem_nil,
        fun p hp => absurd hp List.not_mem_nil⟩

theorem isFresh_of_addClassMappings {js : List Json} (h : addClassMappings r path js m = .ok m')
    (hm : m.IsFresh) : m'.IsFresh := by
  induction js generalizing m with
  | nil =>
    cases h
    exact hm
  | cons j js ih =>
    obtain ⟨⟨s, inner⟩, hj, h⟩ := bind_eq_ok.mp h
    obtain ⟨htakes, hs⟩ := takes_of_classMapping hj
    exact ih h (hm.addTop htakes hs)

theorem isFresh_of_mapping {j : Json} (h : mapping r path j = .ok m) : m.IsFresh := by
  obtain ⟨d, -, h⟩ := bind_eq_ok.mp h
  obtain ⟨built, hb, h⟩ := bind_eq_ok.mp h
  cases h
  have hm := isFresh_of_addClassMappings hb (Mapping.isFresh_empty d.includes)
  exact ⟨hm.once, hm.unwired⟩

end Entry
end ModelGraph
