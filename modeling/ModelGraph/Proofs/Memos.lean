import ModelGraph.Proofs.Evolution
import ModelGraph.Proofs.HashedBodies
import ModelGraph.Proofs.ReferencePaths

namespace ModelGraph

theorem filter_eq_self_of_length {α : Type} {p : α → Bool} {l : List α}
    (h : l.length ≤ (l.filter p).length) : l.filter p = l :=
  List.filter_sublist.eq_of_length_le h

section Prune

variable (isDead : Handle → Bool)

theorem Mapping.prune_eq_self (m : Mapping) (h : m.entries ≤ (m.prune isDead).entries) :
    m.prune isDead = m := by
  simp only [entries, prune] at h
  have hincludes := List.length_filter_le (fun r => !r.target.any isDead) m.includes
  have htop := List.length_filter_le
    (fun i => m.slots[i]?.any fun s => !s.target.target.any isDead) m.top
  have henumerations :=
    List.length_filter_le (fun e => !e.enumeration.target.any isDead) m.enumerationMappings
  rw [prune, filter_eq_self_of_length (by omega), filter_eq_self_of_length (by omega),
    filter_eq_self_of_length (by omega)]

theorem Runtime.prune_eq_self (r : Runtime) (h : r.entries ≤ (r.prune isDead).entries) :
    r.prune isDead = r := by
  simp only [entries, prune] at h
  have hmappings := List.length_filter_le (fun m => !m.target.any isDead) r.mappings
  have hconnections := List.length_filter_le (fun g => !g.store.target.any isDead) r.connections
  rw [prune, filter_eq_self_of_length (by omega), filter_eq_self_of_length (by omega)]

theorem Service.prune_eq_self (s : Service) (h : s.entries ≤ (s.prune isDead).entries) :
    s.prune isDead = s := by
  obtain ⟨pattern, documentation, owners, autoActivateUpdates, execution, annotations⟩ := s
  cases execution with
  | none => rfl
  | some e =>
    have hr : e.runtime.prune isDead = e.runtime := by
      simp only [entries, prune, Option.map_some] at h
      cases hk : e.runtime with
      | pointer r => rfl
      | embedded r =>
        rw [hk] at h
        exact congrArg RuntimeValue.embedded (r.prune_eq_self isDead h)
    simp only [prune, Option.map_some, hr]

theorem Body.prune_eq_self (b : Body) (h : b.entries ≤ (b.prune isDead).entries) :
    b.prune isDead = b := by
  cases b with
  | «class» c => rw [prune, filter_eq_self_of_length h]
  | database d => rw [prune, filter_eq_self_of_length h]
  | mapping m => exact congrArg mapping (m.prune_eq_self isDead h)
  | runtime r => exact congrArg runtime (r.prune_eq_self isDead h)
  | service s => exact congrArg service (s.prune_eq_self isDead h)
  | _ => rfl

end Prune

namespace Element

/-- A kept digest is of no later revision, and one of the present revision is right. -/
def MemoFresh (e : Element) : Prop :=
  ∀ n d, e.memo = some (n, d) → n ≤ e.revision ∧ (n = e.revision → d = e.freshDigest)

/-- What may become of an element without its kept digest being renewed: the digest is kept or
dropped, and where it may be wrong the revision has been raised. -/
structure Tracked (e e' : Element) : Prop where
  memo : e'.memo = e.memo ∨ e'.memo = none
  revision : e.revision < e'.revision ∨
    e'.revision = e.revision ∧ e'.freshDigest = e.freshDigest

namespace Tracked

variable {e e' e'' : Element}

theorem refl (e : Element) : e.Tracked e := ⟨.inl rfl, .inr ⟨rfl, rfl⟩⟩

theorem of_revision (hm : e'.memo = e.memo) (hr : e'.revision = e.revision + 1) : e.Tracked e' :=
  ⟨.inl hm, .inl (hr ▸ Nat.lt_succ_self _)⟩

theorem of_digest (hm : e'.memo = e.memo) (hr : e'.revision = e.revision)
    (hd : e'.freshDigest = e.freshDigest) : e.Tracked e' :=
  ⟨.inl hm, .inr ⟨hr, hd⟩⟩

theorem trans (t : e.Tracked e') (t' : e'.Tracked e'') : e.Tracked e'' where
  memo := by
    rcases t'.memo with hm | hm
    · exact t.memo.imp hm.trans hm.trans
    · exact .inr hm
  revision := by
    rcases t.revision with hr | ⟨hr, hd⟩ <;> rcases t'.revision with hr' | ⟨hr', hd'⟩
    · exact .inl (Nat.lt_trans hr hr')
    · exact .inl (hr' ▸ hr)
    · exact .inl (hr ▸ hr')
    · exact .inr ⟨hr'.trans hr, hd'.trans hd⟩

theorem memoFresh (t : e.Tracked e') (f : e.MemoFresh) : e'.MemoFresh := by
  intro n d hm'
  have hm : e.memo = some (n, d) := by
    rcases t.memo with hm | hm
    · rw [← hm, hm']
    · rw [hm] at hm'
      cases hm'
  obtain ⟨hle, heq⟩ := f n d hm
  rcases t.revision with hr | ⟨hr, hd⟩
  · exact ⟨by omega, fun hn => by omega⟩
  · exact ⟨by omega, fun hn => (heq (by omega)).trans hd.symm⟩

end Tracked

variable {e : Element}

theorem memoFresh_of_none (h : e.memo = none) : e.MemoFresh := by
  intro n d hm
  rw [h] at hm
  cases hm

theorem MemoFresh.hash (f : e.MemoFresh) {d : Digest} {e' : Element} (h : e.hash = .ok (d, e')) :
    d = e.freshDigest ∧ e'.MemoFresh := by
  rw [Element.hash] at h
  split at h
  · cases h
  · split at h
    · next digest hm =>
      obtain ⟨rfl, rfl⟩ := Prod.mk.inj (Except.ok.inj h)
      rw [memo?] at hm
      split at hm
      · next revision digest' hmemo =>
        split at hm
        · next hr => exact ⟨Option.some.inj hm ▸ (f _ _ hmemo).2 hr, f⟩
        · cases hm
      · cases hm
    · obtain ⟨rfl, rfl⟩ := Prod.mk.inj (Except.ok.inj h)
      refine ⟨rfl, ?_⟩
      intro n d hm
      obtain ⟨rfl, rfl⟩ := Prod.mk.inj (Option.some.inj hm)
      exact ⟨Nat.le_refl _, fun _ => rfl⟩

theorem hash_of_no_memo (hf : e.hashFault? = none) (hm : e.memo? = none) :
    e.hash = .ok (e.freshDigest, { e with memo := some (e.revision, e.freshDigest) }) := by
  rw [Element.hash, hf]
  simp only [hm]

theorem tracked_prune (isDead : Handle → Bool) (e : Element) : e.Tracked (e.prune isDead).1 := by
  simp only [prune]
  split
  · next h =>
    refine .of_digest rfl rfl ?_
    have hb := e.body.prune_eq_self isDead (by omega)
    simp only [freshDigest, hb]
  · exact .of_revision rfl rfl

theorem tracked_mapChildren (f : List Handle → List Handle) (e : Element) :
    e.Tracked { e with body := e.body.mapChildren f } :=
  .of_digest rfl rfl (Body.digest_mapChildren f e.path e.body)

end Element

namespace Graph

variable {g g' : Graph}

theorem lasting_tracked : Lasting Element.Tracked := ⟨.refl, .trans⟩

/-- The elements of the second graph are those of the first one, tracked, and others without a kept
digest. -/
def Tracks (g g' : Graph) : Prop :=
  ∀ h e', g'.element? h = some e' → (∃ e, g.element? h = some e ∧ e.Tracked e') ∨ e'.memo = none

def MemosFresh (g : Graph) : Prop := ∀ h e, g.element? h = some e → e.MemoFresh

namespace Tracks

theorem refl (g : Graph) : Tracks g g := fun _ e he => .inl ⟨e, he, .refl e⟩

theorem of_evolves (v : Evolves Element.Tracked g g') : Tracks g g' :=
  fun _ _ he => .inl (v.element? he)

theorem memosFresh (t : Tracks g g') (f : g.MemosFresh) : g'.MemosFresh := by
  intro h e' he'
  rcases t h e' he' with ⟨e, he, ht⟩ | hnone
  · exact ht.memoFresh (f h e he)
  · exact Element.memoFresh_of_none hnone

end Tracks

/-- A graph that comes from another one by pushes of elements of some sort, wherever they are put. -/
inductive Pushes (sort : Element → Prop) (g : Graph) : Graph → Prop
  | refl : Pushes sort g g
  | push {g' : Graph} {e : Element} {owner : Option Handle} {path : Path} :
      Pushes sort g g' → sort e → Pushes sort g (g'.push e owner path).1

namespace Pushes

variable {sort : Element → Prop}

theorem trans {g'' : Graph} (a : Pushes sort g g') (a' : Pushes sort g' g'') : Pushes sort g g'' := by
  induction a' with
  | refl => exact a
  | push _ he ih => exact ih.push he

theorem size_le (a : Pushes sort g g') : g.elements.size ≤ g'.elements.size := by
  induction a with
  | refl => exact Nat.le_refl _
  | @push g' e owner path _ _ ih =>
    have hpush : (g'.push e owner path).1.elements.size = g'.elements.size + 1 := by
      cases owner <;> simp [Graph.push]
    omega

/-- What holds of every element holds after pushes of such elements, if it does not depend on places
and children. -/
theorem forall_elements {P : Handle → Element → Prop} (a : Pushes sort g g')
    (hnew : ∀ h e owner path, g.elements.size ≤ h.slot → sort e → P h (e.attach owner path))
    (hold : ∀ h e f, P h e → P h { e with body := e.body.mapChildren f })
    (hg : ∀ h e, g.element? h = some e → P h e) : ∀ h e, g'.element? h = some e → P h e := by
  induction a with
  | refl => exact hg
  | @push g' e owner path a he ih =>
    have hadded : ∀ (h : Handle) x,
        (g'.elements.push (e.attach owner path))[h.slot]? = some x → P h x := by
      intro h x hx
      rw [Array.getElem?_push] at hx
      split at hx
      · next hh =>
        cases hx
        exact hnew h e owner path (hh ▸ a.size_le) he
      · exact ih h x hx
    cases owner with
    | none => exact hadded
    | some o =>
      intro h x hx
      rw [Graph.push, element?_update] at hx
      by_cases hh : h = o
      · rw [if_pos hh, Option.map_eq_some_iff] at hx
        obtain ⟨y, hy, rfl⟩ := hx
        exact hold h y _ (hadded h y hy)
      · rw [if_neg hh] at hx
        exact hadded h x hx

end Pushes

section Pushes

variable {sort : Element → Prop}

theorem pushes_addStep {e : Element} (he : sort e) (owner : Option Handle) (g : Graph) :
    Pushes sort g (g.addStep e owner).1 := by
  rw [addStep]
  cases ha : g.addElement e owner with
  | error fault => exact .refl
  | ok r =>
    obtain ⟨rfl, -⟩ := addElement_eq_ok ha
    exact .push .refl he

variable (hpackage : ∀ name, sort (.new name (.package [])))
include hpackage

theorem pushes_ensurePackage (g : Graph) (p : Path) : Pushes sort g (g.ensurePackage p).1 :=
  ensurePackage_induction (Q := Pushes sort g)
    (fun g' name owner a => a.trans (pushes_addStep (hpackage name) owner g')) .refl p

theorem pushes_create (path : Path) {body : Body} (hbody : ∀ name, sort (.new name body))
    (g : Graph) : Pushes sort g (g.create path body).1 :=
  create_induction (Q := Pushes sort g)
    (fun g' name owner a => a.trans (pushes_addStep (hpackage name) owner g'))
    (fun g' name owner a => a.trans (pushes_addStep (hbody name) owner g')) .refl path

end Pushes

theorem pushes_new {sort : Element → Prop}
    (hsort : ∀ name, sort (Element.new name .primitiveType).freeze) (r : Registry) :
    Pushes sort { registry := r } (new r) := by
  have hall : ∀ (names : List String) (g : Graph), Pushes sort g (names.foldl
      (fun g name => (g.push (Element.new name .primitiveType).freeze none ⟨name⟩).1) g) := by
    intro names
    induction names with
    | nil => exact fun g => .refl
    | cons name names ih => exact fun g => (Pushes.push .refl (hsort name)).trans (ih _)
  exact hall primitiveNames _

theorem Pushes.tracks (a : Pushes (fun e => e.memo = none) g g') : Tracks g g' := by
  refine a.forall_elements (fun h e owner path _ he => .inr he) ?_ (Tracks.refl g)
  intro h x f hx
  rcases hx with ⟨e, he, ht⟩ | hnone
  · exact .inl ⟨e, he, ht.trans (x.tracked_mapChildren f)⟩
  · exact .inr hnone

theorem memosFresh_new (r : Registry) : (new r).MemosFresh := by
  apply (pushes_new (fun _ => rfl) r).tracks.memosFresh
  intro h e he
  cases he

theorem tracks_delete (h : Handle) (g : Graph) : Tracks g ((g.delete h).toOption.getD g) :=
  .of_evolves (lasting_tracked.evolves_delete (fun _ => .of_digest rfl rfl rfl)
    (fun e f => e.tracked_mapChildren f) h g)

theorem tracks_rename (h : Handle) (name : String) (g : Graph) :
    Tracks g ((g.rename h name).toOption.getD g) :=
  .of_evolves (lasting_tracked.evolves_rename (fun _ _ _ => .of_revision rfl rfl)
    (fun _ _ => .of_revision rfl rfl) (fun _ _ => .of_revision rfl rfl) h name g)

theorem path_onLink_bind (g : Graph) (l : Link) : (Rebinding.onLink g.bind l).path = l.path := by
  rw [onLink_bind]
  cases g.resolve l <;> rfl

theorem tracks_resolveAll (g : Graph) : Tracks g g.resolveAll.1 := by
  apply Tracks.of_evolves
  apply lasting_tracked.evolves_updateLive
  intro e
  exact .of_digest rfl rfl (Body.digest_rebind (fun l _ => path_onLink_bind g l) e.path)

theorem tracked_cleaned (isDead : Handle → Bool) (clean : Cleaner) (e : Element) :
    e.Tracked (cleaned isDead clean e) := by
  unfold cleaned
  split
  · split
    · exact .of_revision rfl rfl
    · exact .refl e
  · exact .refl e

theorem tracks_sweep (g : Graph) : Tracks g g.sweep.1 :=
  .of_evolves (lasting_tracked.evolves_sweep (fun isDead e => e.tracked_prune isDead) g
    fun isDead clean _ => tracked_cleaned isDead clean)

theorem tracks_freeze (g : Graph) : Tracks g g.freeze :=
  .of_evolves (evolves_map (f := Element.freeze) (fun _ => .of_digest rfl rfl rfl) rfl)

theorem tracks_edit (f : Body → Body) (h : Handle) (g : Graph) : Tracks g (g.edit f h) :=
  .of_evolves (lasting_tracked.evolves_update fun _ _ => .of_revision rfl rfl)

theorem tracks_wire (h : Handle) (g : Graph) : Tracks g (g.wire h).1 :=
  .of_evolves (lasting_tracked.evolves_update fun e _ =>
    .of_digest rfl rfl (Body.digest_of_unwire (unwire_wireBody g h e.body) e.path))

theorem tracks_dispose (g : Graph) : Tracks g g.dispose := by
  intro h e' he'
  rw [element?, dispose, Array.getElem?_map, Option.map_eq_some_iff] at he'
  obtain ⟨e, _, rfl⟩ := he'
  exact .inr rfl

/-- Whatever a change does to the elements that are there, it tracks them; an element that is added
must not have a digest from elsewhere. -/
theorem tracks_run {c : Change} (hc : ∀ e owner, c = .add e owner → e.memo = none) (g : Graph) :
    Tracks g (c.run g) := by
  cases c with
  | create path body => exact (pushes_create (fun _ => rfl) path (fun _ => rfl) g).tracks
  | add e owner => exact (pushes_addStep (hc e owner rfl) owner g).tracks
  | ensure path => exact (pushes_ensurePackage (fun _ => rfl) g path).tracks
  | delete h => exact tracks_delete h g
  | rename h name => exact tracks_rename h name g
  | resolve => exact tracks_resolveAll g
  | sweep => exact tracks_sweep g
  | freeze => exact tracks_freeze g
  | edit f h => exact tracks_edit f h g

theorem MemosFresh.hashElement (f : g.MemosFresh) (h : Handle) : (g.hashElement h).1.MemosFresh := by
  rw [Graph.hashElement]
  split
  · exact f
  · next e he =>
    split
    · next d e' hh =>
      intro h' x hx
      rw [element?_update] at hx
      by_cases hh' : h' = h
      · rw [if_pos hh', Option.map_eq_some_iff] at hx
        obtain ⟨-, -, rfl⟩ := hx
        exact ((f h e he).hash hh).2
      · rw [if_neg hh'] at hx
        exact f h' x hx
    · exact f

theorem MemosFresh.hashAll (f : g.MemosFresh) (ls : List (Handle × Element))
    (found : Index Digest) : (Graph.hashAll ls found g).1.MemosFresh := by
  induction ls generalizing g found with
  | nil => exact f
  | cons l ls ih =>
    have hl := f.hashElement l.1
    rw [Graph.hashAll]
    split
    · split
      · next hh =>
        rw [hh] at hl
        exact ih hl _
      · next hh =>
        rw [hh] at hl
        exact hl
    · exact ih f found

end Graph

/-- What is done with a graph: it is changed, wired or disposed of, or asked for digests, which it
keeps. -/
inductive Use where
  | change (c : Change)
  | wire (h : Handle)
  | dispose
  | hash (h : Handle)
  | hashPath (p : Path)
  | hashIndex

namespace Use

def run : Use → Graph → Graph
  | .change c, g => c.run g
  | .wire h, g => (g.wire h).1
  | .dispose, g => g.dispose
  | .hash h, g => (g.hashElement h).1
  | .hashPath p, g => (g.hash p).1
  | .hashIndex, g => g.hashIndex.1

def runAll (us : List Use) (g : Graph) : Graph := us.foldl (fun g u => u.run g) g

/-- No element is added that was hashed outside of the graph. -/
def AddsUnhashed (u : Use) : Prop := ∀ e owner, u = .change (.add e owner) → e.memo = none

end Use

namespace Graph

variable {g : Graph}

theorem MemosFresh.run (f : g.MemosFresh) {u : Use} (hu : u.AddsUnhashed) : (u.run g).MemosFresh := by
  cases u with
  | change c =>
    exact (tracks_run (fun e owner hc => hu e owner (congrArg Use.change hc)) g).memosFresh f
  | wire h => exact (tracks_wire h g).memosFresh f
  | dispose => exact (tracks_dispose g).memosFresh f
  | hash h => exact f.hashElement h
  | hashPath p =>
    rw [Use.run, Graph.hash]
    split
    · exact f
    · exact f.hashElement _
  | hashIndex =>
    have hall := f.hashAll g.live .empty
    rw [Use.run, Graph.hashIndex]
    split
    · next hh =>
      rw [hh] at hall
      exact hall
    · next hh =>
      rw [hh] at hall
      exact hall

theorem memosFresh_runAll {us : List Use} (hu : ∀ u ∈ us, u.AddsUnhashed) (f : g.MemosFresh) :
    (Use.runAll us g).MemosFresh := by
  induction us generalizing g with
  | nil => exact f
  | cons u us ih =>
    exact ih (fun v hv => hu v (List.mem_cons_of_mem u hv)) (f.run (hu u List.mem_cons_self))

/-- Whatever is done with a graph from the beginning on: when an element that it holds gives a
digest, this is the digest of its path and its body as they are then. -/
theorem hash_eq_digest {r : Registry} {us : List Use} (hu : ∀ u ∈ us, u.AddsUnhashed) {h : Handle}
    {e : Element} (he : (Use.runAll us (new r)).element? h = some e) {d : Digest} {e' : Element}
    (hh : e.hash = .ok (d, e')) : d = e.body.digest e.path :=
  ((memosFresh_runAll hu (memosFresh_new r) h e he).hash hh).1

/-- A class is hashed between its binding and the renaming of its super type. -/
def agentUses : List Use :=
  [.change (.create ⟨"Party"⟩ (.class {})),
    .change (.create ⟨"Person"⟩ (.class { superTypes := [.ofText "Party"] })), .change .resolve,
    .hash ⟨13⟩, .change (.rename ⟨12⟩ "Agent")]

theorem hash_eq_digest_renamed_class : ∃ e d e',
    (Use.runAll agentUses (new Preset.full)).element? ⟨13⟩ = some e ∧ e.memo.isSome = true ∧
      e.hash = .ok (d, e') ∧
      d = (Body.class { superTypes := [⟨⟨"Agent"⟩, some ⟨12⟩⟩] }).digest ⟨"Person"⟩ := by
  have hu : ∀ u ∈ agentUses, u.AddsUnhashed := by
    intro u hm e owner hadd
    rw [hadd] at hm
    simp [agentUses] at hm
  let party : Element := {
    name := "Person", path := ⟨"Person"⟩
    body := .class { superTypes := [⟨⟨"Party"⟩, some ⟨12⟩⟩] } }
  let agent : Element := {
    name := "Person", path := ⟨"Person"⟩
    body := .class { superTypes := [⟨⟨"Agent"⟩, some ⟨12⟩⟩] }
    revision := 1, memo := some (0, party.freshDigest) }
  have he : (Use.runAll agentUses (new Preset.full)).element? ⟨13⟩ = some agent := rfl
  have hh := Element.hash_of_no_memo (e := agent) rfl rfl
  exact ⟨_, _, _, he, rfl, hh, hash_eq_digest hu he hh⟩

end Graph
end ModelGraph
