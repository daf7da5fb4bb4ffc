import ModelGraph.Proofs.Evolution
import ModelGraph.Proofs.FrozenGraphs

namespace ModelGraph.Graph

variable {g g' : Graph} {n : Nat}

/-- One operation on a graph that disposes of nothing, whether it succeeds or not. -/
inductive Operated (g : Graph) : Graph → Prop
  | use {u : Use} (hdispose : u ≠ .dispose)
    (hadd : ∀ e owner, u = .change (.add e owner) → e.disposed = false) : Operated g (u.run g)
  | wireAll : Operated g g.wireAll.1

/-- Elements are disposed of if they are among the first `n`. -/
structure DisposedBelow (n : Nat) (g : Graph) : Prop where
  le : n ≤ g.elements.size
  iff : ∀ h e, g.element? h = some e → (e.disposed = true ↔ h.slot < n)

def SameDisposed : Graph → Graph → Prop := Evolves fun e e' => e'.disposed = e.disposed

theorem lasting_disposed : Lasting fun e e' => e'.disposed = e.disposed :=
  lasting_eq Element.disposed

theorem disposedBelow_dispose (g : Graph) : DisposedBelow g.elements.size g.dispose where
  le := by simp [dispose]
  iff := by
    intro h e he
    have hlt := slot_lt_of_element? he
    rw [element?, dispose, Array.getElem?_map, Option.map_eq_some_iff] at he
    obtain ⟨e, -, rfl⟩ := he
    simpa [dispose, Element.dispose] using hlt

namespace DisposedBelow

theorem evolves (d : DisposedBelow n g) (v : SameDisposed g g') : DisposedBelow n g' where
  le := by
    apply Nat.le_of_not_lt
    intro hlt
    have hslot : g'.elements.size < g.elements.size := Nat.lt_of_lt_of_le hlt d.le
    have hrel := v ⟨g'.elements.size⟩
    rw [element?, element?, Array.getElem?_eq_getElem hslot, Array.getElem?_eq_none (Nat.le_refl _)]
      at hrel
    cases hrel
  iff := by
    intro h e' he'
    obtain ⟨e, he, hd⟩ := v.element? he'
    rw [hd]
    exact d.iff h e he

theorem pushes (d : DisposedBelow n g) (a : Pushes (fun e => e.disposed = false) g g') :
    DisposedBelow n g' where
  le := Nat.le_trans d.le a.size_le
  iff := by
    refine a.forall_elements ?_ (fun _ _ _ hd => hd) d.iff
    intro h e owner path hnew he
    have hle := Nat.le_trans d.le hnew
    simp only [Element.attach, he, Bool.false_eq_true, false_iff]
    omega

end DisposedBelow

theorem disposed_prune (isDead : Handle → Bool) (e : Element) :
    (e.prune isDead).1.disposed = e.disposed := by
  simp only [Element.prune]
  split <;> rfl

theorem disposed_cleaned (isDead : Handle → Bool) (clean : Cleaner) (e : Element) :
    (cleaned isDead clean e).disposed = e.disposed := by
  unfold cleaned
  split
  · split <;> rfl
  · rfl

theorem DisposedBelow.change (d : DisposedBelow n g) {c : Change}
    (hadd : ∀ e owner, c = .add e owner → e.disposed = false) : DisposedBelow n (c.run g) := by
  have l := lasting_disposed
  cases c with
  | create path body => exact d.pushes (pushes_create (fun _ => rfl) path (fun _ => rfl) g)
  | add e owner => exact d.pushes (pushes_addStep (hadd e owner rfl) owner g)
  | ensure path => exact d.pushes (pushes_ensurePackage (fun _ => rfl) g path)
  | delete h => exact d.evolves (l.evolves_delete (fun _ => rfl) (fun _ _ => rfl) h g)
  | rename h name =>
    exact d.evolves
      (l.evolves_rename (fun _ _ _ => rfl) (fun _ _ => rfl) (fun _ _ => rfl) h name g)
  | resolve =>
    have hrebound : ∀ e : Element, ({ e with body := e.body.rebind g.bind } : Element).disposed =
      e.disposed := fun _ => rfl
    exact d.evolves (l.evolves_updateLive hrebound g)
  | sweep =>
    exact d.evolves (l.evolves_sweep disposed_prune g fun isDead c _ => disposed_cleaned isDead c)
  | freeze => exact d.evolves (evolves_map (f := Element.freeze) (fun _ => rfl) rfl)
  | edit f h => exact d.evolves (l.evolves_update fun _ _ => rfl)

theorem sameDisposed_of_keeps {α : Type} {π : Element → α} (k : Keeps π g g') (f : α → Bool)
    (hf : f ∘ π = Element.disposed) : SameDisposed g g' :=
  evolves_of_map_eq (π := Element.disposed) (hf ▸ (k.map f).element)

theorem DisposedBelow.operated (d : DisposedBelow n g) (o : Operated g g') :
    DisposedBelow n g' := by
  have l := lasting_disposed
  have hhash (h : Handle) : SameDisposed g (g.hashElement h).1 :=
    sameDisposed_of_keeps (keeps_hashElement h g) Element.disposed rfl
  have hwire (h : Handle) (g : Graph) : SameDisposed g (g.wire h).1 := l.evolves_update fun _ _ => rfl
  cases o with
  | @use u hdispose hadd =>
    cases u with
    | change c => exact d.change fun e owner hc => hadd e owner (congrArg Use.change hc)
    | wire h => exact d.evolves (hwire h g)
    | dispose => exact absurd rfl hdispose
    | hash h => exact d.evolves (hhash h)
    | hashPath p =>
      rw [Use.run, Graph.hash]
      split
      · exact d
      · exact d.evolves (hhash _)
    | hashIndex =>
      exact d.evolves (sameDisposed_of_keeps (hashIndex_eq_gather g).1 (·.1.disposed) rfl)
  | wireAll => exact d.evolves (l.evolves_foldl id (fun g h _ => hwire h g) g)

theorem disposedBelow_of_operated (o : Relation.ReflTransGen Operated g.dispose g') :
    DisposedBelow g.elements.size g' := by
  induction o with
  | refl => exact disposedBelow_dispose g
  | tail _ step ih => exact ih.operated step

theorem hash_of_lookup {p : Path} {h : Handle} {e : Element} (hp : g.lookup p = some h)
    (he : g.element? h = some e) : (g.hash p).2 =
      if e.disposed = true then .error (.disposedElementAccess e.path)
      else if e.isViolated = true then .error (.immutableElementMutation e.path)
      else .ok e.presentDigest := by
  rw [Graph.hash, hp]
  simp only [Graph.hashElement, he]
  cases hf : e.hashFault? with
  | some fault =>
    rw [Element.hash_of_fault hf]
    rw [Element.hashFault?] at hf
    split at hf
    · next hd =>
      rw [if_pos hd, Option.some.inj hf]
    · next hd =>
      split at hf
      · next hv => rw [if_neg hd, if_pos hv, Option.some.inj hf]
      · cases hf
  | none =>
    obtain ⟨e', hh, -, -⟩ := Element.hash_of_no_fault hf
    rw [hh]
    rw [Element.hashFault?] at hf
    split at hf
    · cases hf
    · next hd =>
      split at hf
      · cases hf
      · next hv => rw [if_neg hd, if_neg hv]

/-- Whatever is done with a graph after its disposal: the elements that were there give no digest any
more, and those that have come since give one unless they were frozen and edited. -/
theorem hash_after_disposal (o : Relation.ReflTransGen Operated g.dispose g') {p : Path}
    {h : Handle} {e : Element} (hp : g'.lookup p = some h) (he : g'.element? h = some e) :
    (g'.hash p).2 =
      if h.slot < g.elements.size then .error (.disposedElementAccess e.path)
      else if e.isViolated = true then .error (.immutableElementMutation e.path)
      else .ok e.presentDigest := by
  rw [hash_of_lookup hp he]
  exact if_congr ((disposedBelow_of_operated o).iff h e he) rfl rfl

def spentGraph : Graph := ((Change.create ⟨"A"⟩ (.class {})).run (new Preset.full)).dispose

def revivedGraph : Graph := (Use.change (.create ⟨"B"⟩ (.class {}))).run spentGraph

theorem operated_revivedGraph : Relation.ReflTransGen Operated spentGraph revivedGraph := by
  apply Relation.ReflTransGen.single
  apply Operated.use
  · exact Use.noConfusion
  · intro e owner hadd
    cases hadd

theorem lookup_revivedGraph : revivedGraph.lookup ⟨"A"⟩ = some ⟨12⟩ ∧
    revivedGraph.lookup ⟨"B"⟩ = some ⟨13⟩ := by
  decide +kernel

theorem hash_after_disposal_revived :
    (revivedGraph.hash ⟨"A"⟩).2 = .error (.disposedElementAccess ⟨"A"⟩) := by
  have hpath : (revivedGraph.element? ⟨12⟩).map Element.path = some ⟨"A"⟩ := by decide +kernel
  obtain ⟨e, he, hp⟩ := Option.map_eq_some_iff.mp hpath
  rw [hash_after_disposal operated_revivedGraph lookup_revivedGraph.1 he, if_pos (by decide), hp]

theorem hash_of_revived : Relation.ReflTransGen Operated spentGraph revivedGraph ∧
    revivedGraph.lookup ⟨"B"⟩ = some ⟨13⟩ ∧ ∃ d, (revivedGraph.hash ⟨"B"⟩).2 = .ok d := by
  have hgood : (revivedGraph.element? ⟨13⟩).map (fun e => (e.disposed, e.isViolated)) =
      some (false, false) := by decide +kernel
  obtain ⟨e, he, hf⟩ := Option.map_eq_some_iff.mp hgood
  obtain ⟨hd, hv⟩ := Prod.mk.inj hf
  refine ⟨operated_revivedGraph, lookup_revivedGraph.2, e.presentDigest, ?_⟩
  rw [hash_of_lookup lookup_revivedGraph.2 he, hd, hv]
  rfl

end ModelGraph.Graph
