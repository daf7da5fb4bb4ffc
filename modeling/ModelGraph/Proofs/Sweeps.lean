import ModelGraph.Proofs.FrozenGraphs
import Mathlib.Algebra.GroupWithZero.Nat
import Mathlib.Data.List.Basic

namespace ModelGraph

/-- An entry of one of the lists that a sweep goes over. -/
inductive ListEntry where
  | superType (r : Reference .class)
  | storeInclude (r : Reference .store)
  | mappingInclude (r : Reference .mapping)
  | runtimeMapping (r : Reference .mapping)
  | connections (g : StoreConnections)
  /-- A class mapping at the top of a mapping, with what is in its slot. -/
  | classMapping (index : Nat) (slot : Option SetImplementation)
  | enumerationMapping (m : EnumerationMapping)
  | includedClass (r : Reference .class)
  | fieldName (n : FieldName)

namespace ListEntry

/-- The element that the entry stands for. -/
def target : ListEntry → Option Handle
  | .superType r => r.target
  | .storeInclude r => r.target
  | .mappingInclude r => r.target
  | .runtimeMapping r => r.target
  | .connections g => g.store.target
  | .classMapping _ slot => slot.bind fun s => s.target.target
  | .enumerationMapping m => m.enumeration.target
  | .includedClass r => r.target
  | .fieldName n => n.owner.target

/-- The entry stands for a dead element, or is a class mapping without a slot. -/
def isDead (isDead : Handle → Bool) : ListEntry → Bool
  | .classMapping _ none => true
  | x => x.target.any isDead

/-- All entries but those of serializer schemas are in bodies of core kinds. -/
def isCore : ListEntry → Bool
  | .includedClass _ => false
  | .fieldName _ => false
  | _ => true

end ListEntry

def Mapping.listed (m : Mapping) : List ListEntry :=
  m.includes.map .mappingInclude ++
    ((m.top.map fun i => .classMapping i m.slots[i]?) ++
      m.enumerationMappings.map .enumerationMapping)

def Runtime.listed (r : Runtime) : List ListEntry :=
  r.mappings.map .runtimeMapping ++ r.connections.map .connections

def RuntimeValue.listed : RuntimeValue → List ListEntry
  | .pointer _ => []
  | .embedded r => r.listed

def RuntimeValue.bare : RuntimeValue → RuntimeValue
  | .pointer r => .pointer r
  | .embedded _ => .embedded {}

namespace Body

/-- The entries of a body, list after list. -/
def listed : Body → List ListEntry
  | .class c => c.superTypes.map .superType
  | .database d => d.includes.map .storeInclude
  | .mapping m => m.listed
  | .runtime r => r.listed
  | .service s => (s.execution.map fun e => e.runtime.listed).getD []
  | .extension (.schema s) => s.included.map .includedClass ++ s.fieldNames.map .fieldName
  | _ => []

def bare : Body → Body
  | .class c => .class { c with superTypes := [] }
  | .database d => .database { d with includes := [] }
  | .mapping m => .mapping { m with includes := [], top := [], enumerationMappings := [] }
  | .runtime _ => .runtime {}
  | .service s =>
    .service { s with execution := s.execution.map fun e => { e with runtime := e.runtime.bare } }
  | .extension (.schema s) => .extension (.schema { s with included := [], fieldNames := [] })
  | b => b

end Body

namespace ListEntry

def superType? : ListEntry → Option (Reference .class)
  | .superType r => some r
  | _ => none

def storeInclude? : ListEntry → Option (Reference .store)
  | .storeInclude r => some r
  | _ => none

def mappingInclude? : ListEntry → Option (Reference .mapping)
  | .mappingInclude r => some r
  | _ => none

def runtimeMapping? : ListEntry → Option (Reference .mapping)
  | .runtimeMapping r => some r
  | _ => none

def connections? : ListEntry → Option StoreConnections
  | .connections g => some g
  | _ => none

def classMapping? : ListEntry → Option Nat
  | .classMapping index _ => some index
  | _ => none

def enumerationMapping? : ListEntry → Option EnumerationMapping
  | .enumerationMapping m => some m
  | _ => none

def includedClass? : ListEntry → Option (Reference .class)
  | .includedClass r => some r
  | _ => none

def fieldName? : ListEntry → Option FieldName
  | .fieldName n => some n
  | _ => none

end ListEntry

def Runtime.ofListed (l : List ListEntry) : Runtime where
  mappings := l.filterMap ListEntry.runtimeMapping?
  connections := l.filterMap ListEntry.connections?

def Body.fill (l : List ListEntry) : Body → Body
  | .class c => .class { c with superTypes := l.filterMap ListEntry.superType? }
  | .database d => .database { d with includes := l.filterMap ListEntry.storeInclude? }
  | .mapping m =>
    .mapping { m with
      includes := l.filterMap ListEntry.mappingInclude?
      top := l.filterMap ListEntry.classMapping?
      enumerationMappings := l.filterMap ListEntry.enumerationMapping? }
  | .runtime _ => .runtime (.ofListed l)
  | .service s =>
    .service { s with
      execution := s.execution.map fun e =>
        { e with
          runtime :=
            match e.runtime with
            | .pointer r => .pointer r
            | .embedded _ => .embedded (.ofListed l) } }
  | .extension (.schema s) =>
    .extension (.schema { s with
      included := l.filterMap ListEntry.includedClass?
      fieldNames := l.filterMap ListEntry.fieldName? })
  | b => b

theorem Runtime.ofListed_listed (r : Runtime) : .ofListed r.listed = r := by
  simp [ofListed, listed, ListEntry.runtimeMapping?, ListEntry.connections?, Function.comp_def]

theorem Body.fill_listed (b : Body) : b.bare.fill b.listed = b := by
  cases b with
  | «class» c => simp [bare, fill, listed, Function.comp_def, ListEntry.superType?]
  | database d => simp [bare, fill, listed, Function.comp_def, ListEntry.storeInclude?]
  | mapping m =>
    simp [bare, fill, listed, Mapping.listed, Function.comp_def, ListEntry.mappingInclude?,
      ListEntry.classMapping?, ListEntry.enumerationMapping?]
  | runtime r => simp [bare, fill, listed, Runtime.ofListed_listed]
  | service s =>
    obtain ⟨pattern, documentation, owners, autoActivateUpdates, execution, annotations⟩ := s
    cases execution with
    | none => rfl
    | some e =>
      obtain ⟨query, mapping, runtime⟩ := e
      cases runtime with
      | pointer r => rfl
      | embedded r =>
        simp [bare, fill, listed, RuntimeValue.bare, RuntimeValue.listed, Runtime.ofListed_listed]
  | extension x =>
    cases x with
    | schema s =>
      simp [bare, fill, listed, Function.comp_def, ListEntry.includedClass?, ListEntry.fieldName?]
    | _ => rfl
  | _ => rfl

theorem Body.eq_of_listed {b b' : Body} (hb : b.bare = b'.bare) (h : b.listed = b'.listed) :
    b = b' := by
  rw [← b.fill_listed, hb, h, b'.fill_listed]

section Prune

variable (isDead : Handle → Bool)

theorem ListEntry.isDead_classMapping (index : Nat) (slot : Option SetImplementation) :
    (classMapping index slot).isDead isDead = !slot.any fun s => !s.target.target.any isDead := by
  cases slot <;> simp [ListEntry.isDead, target]

theorem Runtime.listed_prune (r : Runtime) :
    (r.prune isDead).listed = r.listed.filter fun x => !(x.isCore && x.isDead isDead) := by
  simp [listed, prune, List.filter_map, Function.comp_def, ListEntry.isDead, ListEntry.target,
    ListEntry.isCore]

theorem Body.listed_prune (b : Body) :
    (b.prune isDead).listed = b.listed.filter fun x => !(x.isCore && x.isDead isDead) := by
  cases b with
  | «class» c =>
    simp [prune, listed, List.filter_map, Function.comp_def, ListEntry.isDead, ListEntry.target,
      ListEntry.isCore]
  | database d =>
    simp [prune, listed, List.filter_map, Function.comp_def, ListEntry.isDead, ListEntry.target,
      ListEntry.isCore]
  | mapping m =>
    simp only [prune, listed, Mapping.listed, Mapping.prune, List.filter_append, List.filter_map,
      Function.comp_def, ListEntry.isDead_classMapping]
    simp [ListEntry.isCore, ListEntry.isDead, ListEntry.target]
  | runtime r => exact r.listed_prune isDead
  | service s =>
    obtain ⟨pattern, documentation, owners, autoActivateUpdates, execution, annotations⟩ := s
    cases execution with
    | none => rfl
    | some e =>
      obtain ⟨query, mapping, runtime⟩ := e
      cases runtime with
      | pointer r => rfl
      | embedded r => exact r.listed_prune isDead
  | extension x =>
    cases x with
    | schema s =>
      simp [prune, listed, List.filter_map, Function.comp_def, ListEntry.isCore]
    | _ => rfl
  | _ => rfl

theorem Body.bare_prune (b : Body) : (b.prune isDead).bare = b.bare := by
  cases b with
  | service s =>
    obtain ⟨pattern, documentation, owners, autoActivateUpdates, execution, annotations⟩ := s
    cases execution with
    | none => rfl
    | some e =>
      obtain ⟨query, mapping, runtime⟩ := e
      cases runtime <;> rfl
  | _ => rfl

theorem Runtime.entries_eq (r : Runtime) : r.entries = r.listed.countP ListEntry.isCore := by
  simp [entries, listed, Function.comp_def, ListEntry.isCore]

theorem Body.entries_eq (b : Body) : b.entries = b.listed.countP ListEntry.isCore := by
  cases b with
  | «class» c => simp [entries, listed, Function.comp_def, ListEntry.isCore]
  | database d => simp [entries, listed, Function.comp_def, ListEntry.isCore]
  | mapping m =>
    simp [entries, listed, Mapping.entries, Mapping.listed, Function.comp_def, ListEntry.isCore,
      Nat.add_assoc]
  | runtime r => exact r.entries_eq
  | service s =>
    obtain ⟨pattern, documentation, owners, autoActivateUpdates, execution, annotations⟩ := s
    cases execution with
    | none => rfl
    | some e =>
      obtain ⟨query, mapping, runtime⟩ := e
      cases runtime with
      | pointer r => rfl
      | embedded r => exact r.entries_eq
  | extension x =>
    cases x with
    | schema s => simp [entries, listed, Function.comp_def, ListEntry.isCore]
    | _ => rfl
  | _ => rfl

theorem Body.entries_sub_entries_prune (b : Body) :
    b.entries - (b.prune isDead).entries =
      b.listed.countP fun x => x.isCore && x.isDead isDead := by
  have h := List.countP_eq_countP_filter_add b.listed ListEntry.isCore
    (fun x => x.isCore && x.isDead isDead)
  have hgoes : (b.listed.filter fun x => x.isCore && x.isDead isDead).countP ListEntry.isCore =
      b.listed.countP fun x => x.isCore && x.isDead isDead := by
    rw [List.countP_filter]
    refine List.countP_congr fun x _ => ?_
    simp
  rw [entries_eq, entries_eq, listed_prune, h, hgoes, Nat.add_sub_cancel_right]

end Prune

/-- The entries that a sweep takes out, those of schemas perhaps included. -/
def ListEntry.goes (schemas : Bool) (isDead : Handle → Bool) (x : ListEntry) : Bool :=
  (x.isCore || schemas) && x.isDead isDead

theorem Body.isCore_of_schema {b : Body} {s : SerializerSchema} (hb : b = .extension (.schema s)) :
    ∀ x ∈ b.listed, x.isCore = false := by
  subst hb
  simp +contextual [listed, or_imp, forall_and, ListEntry.isCore]

theorem Body.eq_of_prune_eq_extension {isDead : Handle → Bool} {b : Body} {x : Extension}
    (h : b.prune isDead = .extension x) : b = .extension x := by
  cases b with
  | extension y => exact h
  | _ => cases h

namespace Element

def bare (e : Element) : Element := { e with body := e.body.bare, revision := 0 }

/-- The second element is the first one without the entries that go. If there are such entries, it
has a new revision. -/
structure Swept (goes : ListEntry → Bool) (e e' : Element) : Prop where
  listed : e'.body.listed = e.body.listed.filter fun x => !goes x
  bare : e'.bare = e.bare
  revision : e'.revision = if e.body.listed.any goes then e.revision + 1 else e.revision

namespace Swept

variable {goes : ListEntry → Bool} {e e' e'' : Element}

theorem unique (s : e.Swept goes e') (s' : e.Swept goes e'') : e' = e'' := by
  have hb : e'.bare = e''.bare := s.bare.trans s'.bare.symm
  have hbody : e'.body = e''.body :=
    Body.eq_of_listed (congrArg Element.body hb) (s.listed.trans s'.listed.symm)
  have hrevision : e'.revision = e''.revision := s.revision.trans s'.revision.symm
  cases e'
  cases e''
  simp only [Element.bare, Element.mk.injEq] at hb
  simp_all

theorem refl_of_none (h : ∀ x ∈ e.body.listed, goes x = false) : e.Swept goes e where
  listed := by
    rw [eq_comm, List.filter_eq_self]
    exact fun x hx => by rw [h x hx]; rfl
  bare := rfl
  revision := by
    rw [if_neg]
    simpa using h

theorem eq_self (s : e.Swept goes e') (h : ∀ x ∈ e.body.listed, goes x = false) : e' = e :=
  s.unique (refl_of_none h)

theorem congr {goes' : ListEntry → Bool} (s : e.Swept goes e')
    (h : ∀ x ∈ e.body.listed, goes x = goes' x) : e.Swept goes' e' where
  listed := s.listed.trans (List.filter_congr fun x hx => by rw [h x hx])
  bare := s.bare
  revision := by
    have hany : e.body.listed.any goes = e.body.listed.any goes' := by
      rw [Bool.eq_iff_iff, List.any_eq_true, List.any_eq_true]
      exact exists_congr fun x => and_congr_right fun hx => by rw [h x hx]
    rw [s.revision, hany]

end Swept

variable (isDead : Handle → Bool) (e : Element)

theorem snd_prune :
    (e.prune isDead).2 = e.body.listed.countP fun x => x.isCore && x.isDead isDead := by
  rw [← e.body.entries_sub_entries_prune isDead]
  simp only [prune]
  split
  · next h => exact h.symm
  · rfl

theorem fst_prune : (e.prune isDead).1 = { e with
    body := e.body.prune isDead
    revision := if (e.prune isDead).2 = 0 then e.revision else e.revision + 1 } := by
  simp only [prune]
  split
  · rfl
  · rfl

theorem swept_prune : e.Swept (·.goes false isDead) (e.prune isDead).1 := by
  have hgoes : (fun x : ListEntry => x.goes false isDead) = fun x => x.isCore && x.isDead isDead := by
    funext x
    rw [ListEntry.goes, Bool.or_false]
  rw [hgoes]
  have hfst := e.fst_prune isDead
  refine ⟨?_, ?_, ?_⟩
  · rw [hfst]
    exact e.body.listed_prune isDead
  · rw [hfst, bare, bare, Body.bare_prune]
  · rw [hfst, snd_prune]
    by_cases h : e.body.listed.countP (fun x => x.isCore && x.isDead isDead) = 0
    · rw [if_pos h, if_neg]
      simpa [List.countP_eq_zero] using h
    · rw [if_neg h, if_pos]
      simpa [List.countP_eq_zero] using h

variable {e}

end Element

namespace Graph

variable {g g' : Graph}

theorem ext_element? (hi : g'.index = g.index) (hr : g'.roster = g.roster)
    (hg : g'.registry = g.registry) (hf : g'.frozen = g.frozen) (hd : g'.disposed = g.disposed)
    (he : ∀ h, g'.element? h = g.element? h) : g' = g := by
  have helements : g'.elements = g.elements := Array.ext_getElem? fun i => he ⟨i⟩
  cases g
  cases g'
  cases hi
  cases hr
  cases hg
  cases hf
  cases hd
  cases helements
  rfl

theorem pruneAt_eq (isDead : Handle → Bool) (state : Graph × Nat) (h : Handle) :
    pruneAt isDead state h = (state.1.update (fun e => (e.prune isDead).1) h,
      state.2 + ((state.1.element? h).map fun e => (e.prune isDead).2).getD 0) := by
  rw [pruneAt]
  cases he : state.1.element? h with
  | none =>
    have hsame : state.1.update (fun e => (e.prune isDead).1) h = state.1 := by
      refine ext_element? rfl rfl rfl rfl rfl fun h' => ?_
      rw [element?_update]
      split
      · next hh => rw [hh, he, Option.map_none]
      · rfl
    rw [hsame]
    rfl
  | some e =>
    refine Prod.ext ?_ rfl
    refine ext_element? rfl rfl rfl rfl rfl fun h' => ?_
    rw [element?_update, element?_update]
    split
    · next hh => rw [hh, he, Option.map_some, Option.map_some]
    · rfl

theorem foldl_pruneAt (isDead : Handle → Bool) {hs : List Handle} (hn : hs.Nodup)
    (state : Graph × Nat) : hs.foldl (pruneAt isDead) state =
      (hs.foldl (fun g h => g.update (fun e => (e.prune isDead).1) h) state.1,
        state.2 + (hs.map fun h =>
          ((state.1.element? h).map fun e => (e.prune isDead).2).getD 0).sum) := by
  induction hs generalizing state with
  | nil => rfl
  | cons a hs ih =>
    obtain ⟨ha, hn⟩ := List.nodup_cons.mp hn
    rw [List.foldl_cons, ih hn, pruneAt_eq, List.foldl_cons, List.map_cons, List.sum_cons,
      ← Nat.add_assoc]
    have hother : ∀ h ∈ hs, (state.1.update (fun e => (e.prune isDead).1) a).element? h =
        state.1.element? h := by
      intro h hh
      rw [element?_update, if_neg]
      rintro rfl
      exact ha hh
    simp only
    congr 3
    exact List.map_congr_left fun h hh => by rw [hother h hh]

theorem sum_live (f : Element → Nat) (g : Graph) :
    (g.live.map fun l => f l.2).sum = (g.index.values.map fun h => ((g.element? h).map f).getD 0).sum := by
  rw [live]
  induction g.index.values with
  | nil => rfl
  | cons h hs ih =>
    rw [List.filterMap_cons, List.map_cons, List.sum_cons, ← ih]
    cases g.element? h with
    | none => simp
    | some e => simp

/-- What the cleaners of a registry make of an element, one after the other. -/
def cleanedAll (isDead : Handle → Bool) (cs : List Cleaner) (e : Element) : Element :=
  cs.foldl (fun e c => cleaned isDead c e) e

section Sweep

variable (w : g.WellFormed)
include w

theorem element?_cleaners {isDead : Handle → Bool} (cs : List Cleaner) (h : Handle) :
    (cs.foldl (fun g c => g.updateLive (cleaned isDead c)) g).element? h =
      (g.element? h).map fun e => if e.deleted then e else cleanedAll isDead cs e := by
  induction cs generalizing g with
  | nil =>
    rw [List.foldl_nil]
    cases g.element? h with
    | none => rfl
    | some e => simp [cleanedAll]
  | cons c cs ih =>
    have hkeeps : Keeps Element.place g (g.updateLive (cleaned isDead c)) :=
      Keeps.updateLive (place_cleaned isDead c) g
    rw [List.foldl_cons, ih (hkeeps.wellFormed w), w.element?_updateLive, Option.map_map]
    refine congrArg (Option.map · (g.element? h)) (funext fun e => ?_)
    have hd : (cleaned isDead c e).deleted = e.deleted :=
      congrArg ElementPlace.deleted (place_cleaned isDead c e)
    by_cases he : e.deleted = true
    · simp [he]
    · simp [he, hd, cleanedAll]

theorem sweep_eq : g.sweep =
    (g.registry.cleaners.foldl (fun g' c => g'.updateLive (cleaned g.isDeleted c))
        (g.updateLive fun e => (e.prune g.isDeleted).1),
      (g.live.map fun l => (l.2.prune g.isDeleted).2).sum) := by
  rw [sweep, foldl_pruneAt g.isDeleted w.values_nodup,
    sum_live fun e => (e.prune g.isDeleted).2]
  simp only [Nat.zero_add]
  rfl

theorem element?_sweep (h : Handle) : g.sweep.1.element? h =
    (g.element? h).map fun e => if e.deleted then e else
      cleanedAll g.isDeleted g.registry.cleaners (e.prune g.isDeleted).1 := by
  have hplace : ∀ e : Element, (e.prune g.isDeleted).1.place = e.place :=
    fun e => congrArg Prod.fst (e.post_prune g.isDeleted)
  have hkeeps : Keeps Element.place g (g.updateLive fun e => (e.prune g.isDeleted).1) :=
    Keeps.updateLive hplace g
  rw [sweep_eq w, element?_cleaners (hkeeps.wellFormed w), w.element?_updateLive, Option.map_map]
  refine congrArg (Option.map · (g.element? h)) (funext fun e => ?_)
  have hd : (e.prune g.isDeleted).1.deleted = e.deleted :=
    congrArg ElementPlace.deleted (hplace e)
  by_cases he : e.deleted = true
  · simp [he]
  · simp [he, hd]

end Sweep

theorem liveAt_sweep (w : g.WellFormed) {h : Handle} {e' : Element} : g.sweep.1.LiveAt h e' ↔
    ∃ e, g.LiveAt h e ∧ e' = cleanedAll g.isDeleted g.registry.cleaners (e.prune g.isDeleted).1 := by
  have hk := keeps_sweep g
  constructor
  · intro hl
    obtain ⟨e, hle, -⟩ := hk.symm.liveAt hl
    have he := element?_sweep w h
    rw [hle.1, Option.map_some, hl.1, if_neg (by simp [hle.2])] at he
    exact ⟨e, hle, Option.some.inj he⟩
  · rintro ⟨e, hl, rfl⟩
    obtain ⟨e', hl', -⟩ := hk.liveAt hl
    have he := element?_sweep w h
    rw [hl.1, Option.map_some, if_neg (by simp [hl.2])] at he
    rw [hl'.1] at he
    exact Option.some.inj he ▸ hl'

theorem isDeleted_sweep (g : Graph) : g.sweep.1.isDeleted = g.isDeleted := by
  have hk := keeps_sweep g
  funext h
  rw [isDeleted, isDeleted]
  cases he : g.element? h with
  | none =>
    have hn := hk.element h
    rw [he, Option.map_none, Option.map_eq_none_iff] at hn
    rw [hn]
  | some e =>
    obtain ⟨e', he', hp⟩ := hk.element? he
    rw [he']
    exact congrArg ElementPlace.deleted hp

/-- The second graph is the first one without the entries that go, in the elements that are alive. -/
structure Swept (goes : ListEntry → Bool) (g g' : Graph) : Prop where
  index : g'.index = g.index
  roster : g'.roster = g.roster
  registry : g'.registry = g.registry
  frozen : g'.frozen = g.frozen
  disposed : g'.disposed = g.disposed
  element : ∀ h, Option.Rel (fun e e' => if e.deleted then e' = e else e.Swept goes e')
    (g.element? h) (g'.element? h)

namespace Swept

variable {goes : ListEntry → Bool}

theorem liveAt (s : Swept goes g g') {h : Handle} {e' : Element} (hl : g'.LiveAt h e') :
    ∃ e, g.LiveAt h e ∧ e.Swept goes e' := by
  have he := s.element h
  rw [hl.1] at he
  generalize ho : g.element? h = o at he
  cases he with
  | @some e _ he =>
    split at he
    · next hd =>
      rw [he] at hl
      rw [hl.2] at hd
      cases hd
    · next hd => exact ⟨e, ⟨ho, by simpa using hd⟩, he⟩

theorem eq_self (s : Swept goes g g')
    (h : ∀ k e, g.LiveAt k e → ∀ x ∈ e.body.listed, goes x = false) : g' = g := by
  refine ext_element? s.index s.roster s.registry s.frozen s.disposed fun k => ?_
  have he := s.element k
  generalize hg : g.element? k = a, g'.element? k = b at he
  cases he with
  | none => rfl
  | @some e e' he =>
    split at he
    · rw [he]
    · next hd => rw [he.eq_self (h k e ⟨hg, by simpa using hd⟩)]

end Swept

section Registry

variable {ps : List Preset} {r : Registry} (hr : Preset.registry ps = .ok r)
  (hd : Preset.diagram ∉ ps)
include hr hd

end Registry

end Graph

end ModelGraph
