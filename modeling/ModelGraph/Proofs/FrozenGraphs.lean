import ModelGraph.Proofs.HashIndexes
import Mathlib.Data.List.Forall2
import Mathlib.Logic.Relation

namespace ModelGraph

namespace Element

/-- The digest that an element gives as long as nothing forbids it. -/
def presentDigest (e : Element) : Digest := e.memo?.getD e.freshDigest

theorem hash_of_fault {e : Element} {fault : GraphError} (h : e.hashFault? = some fault) :
    e.hash = .error fault := by
  rw [Element.hash, h]

/-- Giving the digest changes nothing but that it is kept, so that it is given again. -/
theorem hash_of_no_fault {e : Element} (h : e.hashFault? = none) :
    ∃ e', e.hash = .ok (e.presentDigest, e') ∧ e'.unhashed = e.unhashed ∧
      e'.presentDigest = e.presentDigest := by
  rw [Element.hash, h, presentDigest]
  cases hm : e.memo? with
  | some d => exact ⟨e, rfl, rfl, by rw [presentDigest, hm]⟩
  | none => exact ⟨_, rfl, rfl, by simp [presentDigest, memo?]⟩

theorem hashFault?_eq_some {e : Element} {fault : GraphError} (h : e.hashFault? = some fault) :
    fault = .disposedElementAccess e.path ∨ fault = .immutableElementMutation e.path := by
  rw [hashFault?] at h
  split at h
  · exact .inl (Option.some.inj h).symm
  · split at h
    · exact .inr (Option.some.inj h).symm
    · cases h

/-- What becomes of an element that is not moved: while its revision stays, so does its digest,
unless the element is disposed of. -/
structure Steady (e e' : Element) : Prop where
  path : e'.path = e.path
  modelled : Graph.isModelled e'.kind = Graph.isModelled e.kind
  immutable : e'.immutable = e.immutable
  frozenRevision : e'.frozenRevision = e.frozenRevision
  disposed : e.disposed = true → e'.disposed = true
  revision : e.revision ≤ e'.revision
  digest : e'.disposed = false → e'.revision = e.revision → e'.presentDigest = e.presentDigest

namespace Steady

variable {e e' e'' : Element}

theorem refl (e : Element) : e.Steady e :=
  ⟨rfl, rfl, rfl, rfl, id, Nat.le_refl _, fun _ _ => rfl⟩

theorem trans (s : e.Steady e') (s' : e'.Steady e'') : e.Steady e'' where
  path := s'.path.trans s.path
  modelled := s'.modelled.trans s.modelled
  immutable := s'.immutable.trans s.immutable
  frozenRevision := s'.frozenRevision.trans s.frozenRevision
  disposed := s'.disposed ∘ s.disposed
  revision := Nat.le_trans s.revision s'.revision
  digest := by
    intro hd hr
    have hd' : e'.disposed = false := by
      cases h : e'.disposed with
      | false => rfl
      | true => exact absurd (s'.disposed h) (by rw [hd]; exact Bool.false_ne_true)
    have hle := s.revision
    have hle' := s'.revision
    rw [s'.digest hd (by omega), s.digest hd' (by omega)]

theorem of_digest {b : Body} (hk : b.kind = e.body.kind) (hd : b.digest e.path = e.freshDigest) :
    e.Steady { e with body := b } := by
  refine ⟨rfl, congrArg Graph.isModelled hk, rfl, rfl, id, Nat.le_refl _, fun _ _ => ?_⟩
  exact congrArg e.memo?.getD hd

theorem of_edit {f : Body → Body}
    (hk : Graph.isModelled (f e.body).kind = Graph.isModelled e.body.kind) :
    e.Steady (e.edit f) :=
  ⟨rfl, hk, rfl, rfl, id, Nat.le_succ _, fun _ hr => absurd hr (Nat.succ_ne_self _)⟩

theorem of_dispose {b : Body} (hk : b.kind = e.body.kind) :
    e.Steady { e with body := b }.dispose :=
  ⟨rfl, congrArg Graph.isModelled hk, rfl, rfl, fun _ => rfl, Nat.le_refl _, nofun⟩

theorem of_unhashed (hu : e'.unhashed = e.unhashed) (hd : e'.presentDigest = e.presentDigest) :
    e.Steady e' where
  path := (congrArg Element.path hu :)
  modelled := (congrArg (fun x => Graph.isModelled (Element.kind x)) hu :)
  immutable := (congrArg Element.immutable hu :)
  frozenRevision := (congrArg Element.frozenRevision hu :)
  disposed := (congrArg Element.disposed hu :).trans
  revision := Nat.le_of_eq (congrArg Element.revision hu :).symm
  digest := fun _ _ => hd

theorem presentDigest_eq {x : Element} (s : x.freeze.Steady e) (h : e.hashFault? = none) :
    e.presentDigest = x.presentDigest := by
  rw [hashFault?] at h
  split at h
  · cases h
  · next hd =>
    split at h
    · cases h
    · next hv =>
      refine s.digest (by simpa using hd) ?_
      have him : e.immutable = true := s.immutable
      have hfr : e.frozenRevision = x.freeze.revision := s.frozenRevision
      simpa [isViolated, him, hfr] using hv

end Steady

theorem steady_prune (isDead : Handle → Bool) (e : Element) : e.Steady (e.prune isDead).1 := by
  simp only [prune]
  split
  · next h =>
    refine .of_digest (Body.kind_prune _ _) ?_
    rw [e.body.prune_eq_self isDead (by omega), freshDigest]
  · exact .of_edit (congrArg Graph.isModelled (Body.kind_prune _ _))

theorem steady_cleaned (isDead : Handle → Bool) (clean : Cleaner) (e : Element) :
    e.Steady (Graph.cleaned isDead clean e) := by
  unfold Graph.cleaned
  split
  · next x hx =>
    split
    · refine .of_edit ?_
      rw [hx]
      rfl
    · exact .refl e
  · exact .refl e

end Element

namespace Graph

variable {g g' : Graph}

theorem lasting_steady : Lasting Element.Steady := ⟨.refl, .trans⟩

/-- A graph with the same elements at the same places, all of them steady. -/
structure Steady (g g' : Graph) : Prop where
  index : g'.index = g.index
  frozen : g'.frozen = g.frozen
  element : ∀ h, Option.Rel Element.Steady (g.element? h) (g'.element? h)

namespace Steady

theorem refl (g : Graph) : Steady g g := ⟨rfl, rfl, lasting_steady.evolves_refl g⟩

theorem trans {g'' : Graph} (s : Steady g g') (s' : Steady g' g'') : Steady g g'' :=
  ⟨s'.index.trans s.index, s'.frozen.trans s.frozen,
    lasting_steady.evolves_trans s.element s'.element⟩

theorem update {f : Element → Element} {h : Handle}
    (hf : ∀ e, g.element? h = some e → e.Steady (f e)) : Steady g (g.update f h) :=
  ⟨rfl, rfl, lasting_steady.evolves_update hf⟩

theorem foldl {α β : Type} (graph : α → Graph) {step : α → β → α} {l : List β}
    (hs : ∀ a b, Steady (graph a) (graph (step a b))) (a : α) :
    Steady (graph a) (graph (l.foldl step a)) := by
  induction l generalizing a with
  | nil => exact refl _
  | cons b l ih => exact (hs a b).trans (ih (step a b))

theorem updateLive {f : Element → Element} (hf : ∀ e : Element, e.Steady (f e)) (g : Graph) :
    Steady g (g.updateLive f) :=
  foldl id (fun _ _ => update fun e _ => hf e) g

end Steady

section Frozen

variable (hf : g.frozen = true)
include hf

theorem addStep_frozen (e : Element) (owner : Option Handle) : (g.addStep e owner).1 = g := by
  rw [addStep]
  cases ha : g.addElement e owner with
  | error fault => rfl
  | ok r =>
    obtain ⟨-, hfalse, -⟩ := addElement_eq_ok ha
    rw [hf] at hfalse
    cases hfalse

theorem ensurePackage_frozen (p : Path) : (g.ensurePackage p).1 = g := by
  fun_induction ensurePackage g p with
  | case1 => rfl
  | case2 => rfl
  | case3 => exact addStep_frozen hf _ _
  | case4 p _ q hq g' owner hg ih =>
    rw [hg] at ih
    obtain rfl : g' = g := ih
    exact addStep_frozen hf _ _
  | case5 p _ q hq g' fault hg ih =>
    rw [hg] at ih
    exact ih

theorem create_frozen (path : Path) (body : Body) : (g.create path body).1 = g := by
  rw [create]
  split
  · rfl
  · split
    · exact addStep_frozen hf _ _
    · next q _ =>
      have hq := ensurePackage_frozen hf q
      split
      · next g' owner hg =>
        rw [hg] at hq
        obtain rfl : g' = g := hq
        exact addStep_frozen hf _ _
      · next hg =>
        rw [hg] at hq
        exact hq

theorem delete_frozen (h : Handle) : (g.delete h).toOption.getD g = g := by
  rw [delete, hf]
  split
  · rfl
  · split <;> rfl

theorem rename_frozen (h : Handle) (name : String) : (g.rename h name).toOption.getD g = g := by
  rw [rename, hf]
  split <;> rfl

end Frozen

theorem steady_resolveAll (g : Graph) : Steady g g.resolveAll.1 :=
  Steady.updateLive (fun e => .of_digest (Body.kind_rebind _ _)
    (Body.digest_rebind (fun l _ => path_onLink_bind g l) e.path)) g

theorem steady_sweep (g : Graph) : Steady g g.sweep.1 := by
  have hpruned : Steady g (g.index.values.foldl (pruneAt g.isDeleted) (g, 0)).1 := by
    refine Steady.foldl Prod.fst (fun state h => ?_) (g, 0)
    unfold pruneAt
    cases he : state.1.element? h with
    | none => exact .refl _
    | some e =>
      refine Steady.update fun e' he' => ?_
      obtain rfl := Option.some.inj (he.symm.trans he')
      exact e.steady_prune g.isDeleted
  exact hpruned.trans (Steady.foldl id
    (fun g' clean => Steady.updateLive (Element.steady_cleaned g.isDeleted clean) g') _)

theorem steady_wire (h : Handle) (g : Graph) : Steady g (g.wire h).1 := by
  refine Steady.update fun e _ => ?_
  have hu := unwire_wireBody g h e.body
  refine .of_digest ?_ (Body.digest_of_unwire hu e.path)
  rw [← Body.kind_unwire, hu, Body.kind_unwire]

theorem steady_dispose (g : Graph) : Steady g g.dispose := by
  refine ⟨rfl, rfl, evolves_map (fun e => ?_) rfl⟩
  exact .of_dispose ((Body.kind_unwire _).trans (Body.kind_rebind _ _))

theorem keeps_presentDigest (h : Handle) (g : Graph) :
    Keeps (fun e => (e.unhashed, e.presentDigest)) g (g.hashElement h).1 := by
  rw [hashElement]
  split
  · exact .refl g
  · next e he =>
    split
    · next d e' hh =>
      refine Keeps.update fun x hx => ?_
      rw [Option.some.inj (hx.symm.trans he)]
      cases hf : e.hashFault? with
      | some fault =>
        rw [Element.hash_of_fault hf] at hh
        cases hh
      | none =>
        obtain ⟨y, hy, hu, hd⟩ := Element.hash_of_no_fault hf
        rw [hy] at hh
        cases hh
        rw [hu, hd]
    · exact .refl g

/-- The digests that elements give, up to the first that gives none. -/
def gather : List Element → Index Digest → Except GraphError (Index Digest)
  | [], found => .ok found
  | e :: es, found =>
    if isModelled e.kind then
      match e.hashFault? with
      | some fault => .error fault
      | none => gather es (found.insert e.path e.presentDigest)
    else gather es found

theorem hashAll_eq_gather {g₀ : Graph} {ls : List (Handle × Element)} {found : Index Digest}
    (k : Keeps (fun e => (e.unhashed, e.presentDigest)) g₀ g)
    (hls : ∀ l ∈ ls, g₀.element? l.1 = some l.2) :
    Keeps (fun e => (e.unhashed, e.presentDigest)) g₀ (hashAll ls found g).1 ∧
      (hashAll ls found g).2 = gather (ls.map Prod.snd) found := by
  induction ls generalizing g found with
  | nil => exact ⟨k, rfl⟩
  | cons l ls ih =>
    have hrest := fun l' hl' => hls l' (List.mem_cons_of_mem l hl')
    rw [hashAll, List.map_cons, gather]
    by_cases hm : isModelled l.2.kind = true
    · obtain ⟨e, he, hpair⟩ := k.element? (hls l List.mem_cons_self)
      obtain ⟨hu, hd⟩ := Prod.mk.inj hpair
      have hk := k.trans (keeps_presentDigest l.1 g)
      rw [if_pos hm, if_pos hm, ← Element.hashFault?_of_unhashed hu]
      have hstep : (g.hashElement l.1).2 =
          match e.hashFault? with
          | some fault => .error fault
          | none => .ok l.2.presentDigest := by
        rw [hashElement, he]
        cases hf : e.hashFault? with
        | some fault => simp only [Element.hash_of_fault hf]
        | none =>
          obtain ⟨e', he', -, -⟩ := Element.hash_of_no_fault hf
          simp only [he', hd]
      cases hf : e.hashFault? with
      | some fault =>
        rw [hf] at hstep
        split
        · next hh =>
          rw [hh] at hstep
          cases hstep
        · next hh =>
          rw [hh] at hstep hk
          cases hstep
          exact ⟨hk, rfl⟩
      | none =>
        rw [hf] at hstep
        split
        · next hh =>
          rw [hh] at hstep hk
          cases hstep
          exact ih hk hrest
        · next hh =>
          rw [hh] at hstep
          cases hstep
    · rw [if_neg hm, if_neg hm]
      exact ih k hrest

theorem element?_of_mem_live {l : Handle × Element} (h : l ∈ g.live) :
    g.element? l.1 = some l.2 := by
  obtain ⟨h', -, hl⟩ := List.mem_filterMap.mp h
  obtain ⟨e, he, rfl⟩ := Option.map_eq_some_iff.mp hl
  exact he

theorem hashIndex_eq_gather (g : Graph) :
    Keeps (fun e => (e.unhashed, e.presentDigest)) g g.hashIndex.1 ∧
      g.hashIndex.2 = (gather (g.live.map Prod.snd) .empty).map Index.sorted := by
  obtain ⟨hk, hall⟩ : Keeps (fun e => (e.unhashed, e.presentDigest)) g (hashAll g.live .empty g).1 ∧
      (hashAll g.live .empty g).2 = gather (g.live.map Prod.snd) .empty :=
    hashAll_eq_gather (.refl g) fun l hl => element?_of_mem_live hl
  rw [← hall, hashIndex]
  split
  · next hh =>
    rw [hh] at hk ⊢
    exact ⟨hk, rfl⟩
  · next hh =>
    rw [hh] at hk ⊢
    exact ⟨hk, rfl⟩

theorem Steady.of_keeps {g g' : Graph} (hf : g'.frozen = g.frozen)
    (k : Keeps (fun e => (e.unhashed, e.presentDigest)) g g') : Steady g g' := by
  refine ⟨k.index, hf, fun h => ?_⟩
  have he := k.element h
  generalize g.element? h = a, g'.element? h = b at he
  cases a with
  | none =>
    cases b with
    | none => exact .none
    | some e' => cases he
  | some e =>
    cases b with
    | none => cases he
    | some e' =>
      obtain ⟨hu, hd⟩ := Prod.mk.inj (Option.some.inj he)
      exact .some (.of_unhashed hu hd)

theorem frozen_hashElement (h : Handle) (g : Graph) :
    (g.hashElement h).1.frozen = g.frozen := by
  rw [hashElement]
  split
  · rfl
  · split <;> rfl

theorem frozen_hashAll (ls : List (Handle × Element)) (found : Index Digest) (g : Graph) :
    (hashAll ls found g).1.frozen = g.frozen := by
  induction ls generalizing found g with
  | nil => rfl
  | cons l ls ih =>
    have hl := frozen_hashElement l.1 g
    rw [hashAll]
    split
    · split
      · next hh =>
        rw [hh] at hl
        exact (ih _ _).trans hl
      · next hh =>
        rw [hh] at hl
        exact hl
    · exact ih found g

theorem frozen_hashIndex (g : Graph) : g.hashIndex.1.frozen = g.frozen := by
  have hall := frozen_hashAll g.live .empty g
  rw [hashIndex]
  split <;>
  · next hh =>
    rw [hh] at hall
    exact hall

/-- One operation on a graph, short of freezing it, whether it succeeds or not. Edits leave a body
its kind. -/
inductive Later (g : Graph) : Graph → Prop
  | use {u : Use} (hfreeze : u ≠ .change .freeze) (hkind : ∀ c, u = .change c → c.KeepsKind g) :
    Later g (u.run g)
  | wireAll : Later g g.wireAll.1
  | disposeAt (h : Handle) : Later g (g.update Element.dispose h)

theorem steady_change (hf : g.frozen = true) {c : Change} (hc : c ≠ .freeze) (hk : c.KeepsKind g) :
    Steady g (c.run g) := by
  have same {x : Graph} (h : x = g) : Steady g x := h ▸ .refl g
  cases c with
  | create path body => exact same (create_frozen hf path body)
  | add e owner => exact same (addStep_frozen hf e owner)
  | ensure path => exact same (ensurePackage_frozen hf path)
  | delete h => exact same (delete_frozen hf h)
  | rename h name => exact same (rename_frozen hf h name)
  | resolve => exact steady_resolveAll g
  | sweep => exact steady_sweep g
  | freeze => exact absurd rfl hc
  | edit f h =>
    refine Steady.update fun e he => .of_edit (congrArg isModelled (hk e.body ?_))
    rw [body?, he, Option.map_some]

theorem Later.steady (hf : g.frozen = true) (l : Later g g') : Steady g g' := by
  have hhash (h : Handle) : Steady g (g.hashElement h).1 :=
    .of_keeps (frozen_hashElement h g) (keeps_presentDigest h g)
  cases l with
  | @use u hfreeze hkind =>
    cases u with
    | change c => exact steady_change hf (fun hc => hfreeze (congrArg Use.change hc)) (hkind c rfl)
    | wire h => exact steady_wire h g
    | dispose => exact steady_dispose g
    | hash h => exact hhash h
    | hashPath p =>
      rw [Use.run, Graph.hash]
      split
      · exact .refl g
      · exact hhash _
    | hashIndex => exact .of_keeps (frozen_hashIndex g) (hashIndex_eq_gather g).1
  | wireAll => exact Steady.foldl id (fun g h => steady_wire h g) g
  | disposeAt h => exact Steady.update fun e _ => .of_dispose rfl

theorem steady_of_later (hf : g.frozen = true) (l : Relation.ReflTransGen Later g g') :
    Steady g g' := by
  induction l with
  | refl => exact .refl g
  | tail _ step ih => exact ih.trans (step.steady (ih.frozen.trans hf))

theorem Steady.forall₂_live (s : Steady g.freeze g') :
    List.Forall₂ (fun e e' => e.freeze.Steady e') (g.live.map Prod.snd) (g'.live.map Prod.snd) := by
  rw [live, live, s.index]
  change List.Forall₂ _ _ ((List.filterMap _ g.index.values).map Prod.snd)
  induction g.index.values with
  | nil => exact .nil
  | cons h hs ih =>
    have he := s.element h
    rw [element?_freeze] at he
    rw [List.filterMap_cons, List.filterMap_cons]
    generalize g.element? h = a, g'.element? h = b at he
    cases a with
    | none =>
      cases he
      exact ih
    | some e =>
      cases he with
      | some he => exact .cons he ih

theorem gather_of_steady {es es' : List Element} {found index : Index Digest}
    (hs : List.Forall₂ (fun e e' => e.freeze.Steady e') es es') (h : gather es found = .ok index) :
    gather es' found = .ok index ∨ ∃ p, gather es' found = .error (.immutableElementMutation p) ∨
      gather es' found = .error (.disposedElementAccess p) := by
  induction hs generalizing found with
  | nil => exact .inl h
  | @cons e e' es es' he _ ih =>
    have hm : isModelled e'.kind = isModelled e.kind := he.modelled
    rw [gather] at h ⊢
    rw [hm]
    split
    · next hmodelled =>
      rw [if_pos hmodelled] at h
      cases hf : e'.hashFault? with
      | some fault =>
        refine .inr ⟨e'.path, ?_⟩
        rcases Element.hashFault?_eq_some hf with rfl | rfl
        · exact .inr rfl
        · exact .inl rfl
      | none =>
        have hp : e'.path = e.path := he.path
        rw [he.presentDigest_eq hf, hp]
        split at h
        · cases h
        · exact ih h
    · next hmodelled =>
      rw [if_neg hmodelled] at h
      exact ih h

/-- Whatever is done with a graph after it was frozen, it gives the digests that it had before, or
says that an element was changed or disposed of. -/
theorem hashIndex_of_later {index : Index Digest} (hi : g.hashIndex.2 = .ok index)
    (later : Relation.ReflTransGen Later g.freeze g') :
    g'.hashIndex.2 = .ok index ∨
      ∃ p, g'.hashIndex.2 = .error (.immutableElementMutation p) ∨
        g'.hashIndex.2 = .error (.disposedElementAccess p) := by
  rw [(hashIndex_eq_gather g).2] at hi
  obtain ⟨found, hg, rfl⟩ : ∃ found, gather (g.live.map Prod.snd) .empty = .ok found ∧
      found.sorted = index := by
    cases hg : gather (g.live.map Prod.snd) .empty with
    | error fault =>
      rw [hg] at hi
      cases hi
    | ok found =>
      rw [hg] at hi
      exact ⟨found, rfl, Except.ok.inj hi⟩
  rw [(hashIndex_eq_gather g').2]
  rcases gather_of_steady (steady_of_later rfl later).forall₂_live hg with h | ⟨p, h | h⟩
  · rw [h]
    exact .inl rfl
  · rw [h]
    exact .inr ⟨p, .inl rfl⟩
  · rw [h]
    exact .inr ⟨p, .inr rfl⟩

def personGraph : Graph := (Change.create ⟨"Person"⟩ (.class {})).run (new Preset.full)

def extendParty : Body → Body
  | .class c => .class { c with superTypes := c.superTypes ++ [.ofText "Party"] }
  | b => b

theorem hashIndex_of_later_edit : ∃ index, personGraph.hashIndex.2 = .ok index ∧
    Relation.ReflTransGen Later personGraph.freeze
      (personGraph.freeze.sweep.1.wireAll.1.edit extendParty ⟨12⟩) ∧
    ((personGraph.freeze.sweep.1.wireAll.1.edit extendParty ⟨12⟩).hashIndex.2 = .ok index ∨
      ∃ p, (personGraph.freeze.sweep.1.wireAll.1.edit extendParty ⟨12⟩).hashIndex.2 =
          .error (.immutableElementMutation p) ∨
        (personGraph.freeze.sweep.1.wireAll.1.edit extendParty ⟨12⟩).hashIndex.2 =
          .error (.disposedElementAccess p)) := by
  have hi : personGraph.hashIndex.2 = .ok _ := rfl
  have hsweep : Later personGraph.freeze personGraph.freeze.sweep.1 :=
    .use (u := .change .sweep) nofun fun c hc => by cases hc; trivial
  have hedit : Later personGraph.freeze.sweep.1.wireAll.1
      (personGraph.freeze.sweep.1.wireAll.1.edit extendParty ⟨12⟩) := by
    refine .use (u := .change (.edit extendParty ⟨12⟩)) nofun fun c hc => ?_
    cases hc
    intro b _
    cases b <;> rfl
  have later := (Relation.ReflTransGen.single hsweep).tail .wireAll |>.tail hedit
  exact ⟨_, hi, later, hashIndex_of_later hi later⟩

/-- The graphs that come from the new graph by changes that are allowed, by wiring, disposal and
hashing. -/
inductive Lived (r : Registry) : Graph → Prop
  | new : Lived r (new r)
  | use {g : Graph} {u : Use} : Lived r g → (∀ c, u = .change c → c.Allowed g) → Lived r (u.run g)
  | wireAll {g : Graph} : Lived r g → Lived r g.wireAll.1
  | disposeAt {g : Graph} (h : Handle) : Lived r g → Lived r (g.update Element.dispose h)

theorem Lived.change {r : Registry} (a : Lived r g) {c : Change} (hc : c.Allowed g) :
    Lived r (c.run g) := by
  refine a.use (u := .change c) fun c' hc' => ?_
  cases hc'
  exact hc

theorem keeps_dispose (g : Graph) : Keeps Element.post g g.dispose where
  index := rfl
  roster := rfl
  registry := rfl
  element := by
    intro h
    rw [element?, element?, dispose, Array.getElem?_map, Option.map_map]
    refine congrArg (Option.map · g.elements[h.slot]?) (funext fun e => ?_)
    refine Element.post_eq_of_body rfl rfl rfl rfl ?_ ?_
    · exact (Body.kind_unwire _).trans (Body.kind_rebind _ _)
    · exact (Body.children_unwire _).trans (Body.children_rebind _ _)

theorem keeps_use (g : Graph) {u : Use} (hu : ∀ c, u ≠ .change c) :
    Keeps Element.post g (u.run g) := by
  have hhash (h : Handle) : Keeps Element.post g (g.hashElement h).1 :=
    (keeps_hashElement h g).map Element.post
  cases u with
  | change c => exact absurd rfl (hu c)
  | wire h => exact (keeps_wire h g).post
  | dispose => exact keeps_dispose g
  | hash h => exact hhash h
  | hashPath p =>
    rw [Use.run, Graph.hash]
    split
    · exact .refl g
    · exact hhash _
  | hashIndex => exact (hashIndex_eq_gather g).1.map fun d => d.1.post

theorem Lived.wellFormed_and_registry {r : Registry} (a : Lived r g) :
    g.WellFormed ∧ g.registry = r := by
  induction a with
  | new =>
    have grows := grows_new (P := fun _ _ => True) (fun _ _ => trivial) r
    exact ⟨wellFormed_new r, grows.registry_eq⟩
  | @use g u _ hu ih =>
    obtain ⟨w, hr⟩ := ih
    by_cases hc : ∃ c, u = .change c
    · obtain ⟨c, rfl⟩ := hc
      exact ⟨w.run (hu c rfl), (registry_run w (hu c rfl)).trans hr⟩
    · have hk := keeps_use g (not_exists.mp hc)
      exact ⟨hk.place.wellFormed w, hk.registry.trans hr⟩
  | @wireAll g _ ih =>
    have hk := (keeps_wireAll g).post
    exact ⟨hk.place.wellFormed ih.1, hk.registry.trans ih.2⟩
  | @disposeAt g h _ ih =>
    have hk : Keeps Element.place g (g.update Element.dispose h) := Keeps.update fun _ _ => rfl
    exact ⟨hk.wellFormed ih.1, ih.2⟩

theorem Lived.wellFormed {r : Registry} (a : Lived r g) : g.WellFormed :=
  a.wellFormed_and_registry.1

theorem Lived.registry_eq {r : Registry} (a : Lived r g) : g.registry = r :=
  a.wellFormed_and_registry.2

end Graph
end ModelGraph
