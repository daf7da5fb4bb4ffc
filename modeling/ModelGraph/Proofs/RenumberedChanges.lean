import ModelGraph.Proofs.HashIndexes
import ModelGraph.Proofs.RenumberedGraphs

namespace ModelGraph.Graph

variable {r : Registry} {φ : Handle → Handle} {k : Nat}

/-- Both succeed, with results that are related, or both fail in the same way. -/
inductive SameOutcome {α : Type} (R : α → α → Prop) :
    Except GraphError α → Except GraphError α → Prop
  | ok {a a' : α} : R a a' → SameOutcome R (.ok a) (.ok a')
  | error (fault : GraphError) : SameOutcome R (.error fault) (.error fault)

namespace Renumbered

variable {g g' : Graph}

theorem children_filter_subset (p : Handle → Bool) (b : Body) :
    (b.mapChildren (·.filter p)).children ⊆ b.children := by
  cases b with
  | package children => exact List.filter_subset_self children
  | _ => exact List.Subset.refl _

theorem leave (m : Renumbered r φ k g g') (h : Handle) (package : Option Handle) :
    Renumbered r φ k (g.leave h package) (g'.leave (φ h) (package.map φ)) := by
  cases package with
  | none => exact m
  | some o =>
    refine m.update (fun e _ => ?_) fun e _ => children_filter_subset _ e.body
    have hfilter : ∀ l : List Handle,
        (l.filter (· ≠ h)).map φ = (l.map φ).filter (· ≠ φ h) := by
      intro l
      simp only [List.filter_map, Function.comp_def, ne_eq, m.eq_iff]
    exact congrArg (fun b : Body => { e with package := e.package.map φ, body := b })
      (e.body.renumber_mapChildren hfilter)

theorem retire (m : Renumbered r φ k g g') (h : Handle) (e : Element) :
    Renumbered r φ k (g.retire h e) (g'.retire (φ h) (e.renumber φ)) := by
  have mu : Renumbered r φ k (g.update (fun e => { e with deleted := true }) h)
      (g'.update (fun e => { e with deleted := true }) (φ h)) :=
    m.update (fun _ _ => rfl) fun _ _ => List.Subset.refl _
  refine (mu.relist (Index.entries_erase mu.entries e.path) ?_).leave h e.package
  simp only [roster_update, m.roster, List.filter_map, e.kind_renumber]
  refine congrArg _ (List.filter_congr fun post _ => ?_)
  obtain ⟨kind, i⟩ := post
  simp only [Function.comp_apply, Prod.map_apply, id_eq, ne_eq, Prod.mk.injEq, m.eq_iff]

theorem size_retire (h : Handle) (e : Element) :
    (g.retire h e).elements.size = g.elements.size := by
  unfold Graph.retire Graph.leave
  cases e.package <;> simp

theorem retireTree_none {fuel : Nat} {h : Handle} (hn : g.element? h = none) :
    g.retireTree fuel h = g := by
  cases fuel with
  | zero => rfl
  | succ fuel => rw [Graph.retireTree, hn]

/-- With fuel for all that comes after an element, its deletion goes down to the same elements in
both graphs. -/
theorem retireTree (fuel : Nat) : ∀ {g g' : Graph}, Renumbered r φ k g g' → ∀ h : Handle,
    g.elements.size ≤ h.slot + fuel →
      Renumbered r φ k (g.retireTree fuel h) (g'.retireTree (fuel + k) (φ h)) ∧
        (g.retireTree fuel h).elements.size = g.elements.size := by
  induction fuel with
  | zero =>
    intro g g' m h hf
    have hn : g.element? h = none := Array.getElem?_eq_none hf
    rw [retireTree_none (m.element_none hn)]
    exact ⟨m, rfl⟩
  | succ fuel ih =>
    intro g g' m h hf
    rw [Nat.add_right_comm, Graph.retireTree, Graph.retireTree, m.element]
    cases he : g.element? h with
    | none => exact ⟨m, rfl⟩
    | some e =>
      have hd : (e.renumber φ).deleted = e.deleted := rfl
      have hc : (e.renumber φ).body.children = e.body.children.map φ := e.body.children_renumber
      simp only [Option.map_some, hd, hc]
      by_cases hdeleted : e.deleted = true
      · rw [if_pos hdeleted, if_pos hdeleted]
        exact ⟨m, rfl⟩
      · rw [if_neg hdeleted, if_neg hdeleted, List.foldl_map]
        have hstep : ∀ c ∈ e.body.children, ∀ a a',
            Renumbered r φ k a a' ∧ a.elements.size = g.elements.size →
              Renumbered r φ k (a.retireTree fuel c) (a'.retireTree (fuel + k) (φ c)) ∧
                (a.retireTree fuel c).elements.size = g.elements.size := by
          rintro c hm a a' ⟨ma, hsa⟩
          have hlt := m.descends h e c he hm
          obtain ⟨mr, hsr⟩ := ih ma c (by omega)
          exact ⟨mr, hsr.trans hsa⟩
        obtain ⟨mf, hs⟩ := List.foldl_rel ⟨m, rfl⟩ hstep
        exact ⟨mf.retire h e, (size_retire h e).trans hs⟩

theorem delete (m : Renumbered r φ k g g') (h : Handle) :
    SameOutcome (Renumbered r φ k) (g.delete h) (g'.delete (φ h)) := by
  rw [Graph.delete, Graph.delete, m.element, m.frozen]
  cases g.element? h with
  | none => exact .ok m
  | some e =>
    have hd : (e.renumber φ).deleted = e.deleted := rfl
    simp only [Option.map_some, hd]
    cases e.deleted with
    | true => exact .ok m
    | false =>
      cases g.frozen with
      | true => exact .error _
      | false =>
        refine .ok ?_
        rw [m.fuel_eq]
        exact (retireTree g.fuel m h (by rw [fuel]; omega)).1

theorem reindex (m : Renumbered r φ k g g') (old new : Path) (h : Handle) :
    Renumbered r φ k (g.reindex old new h) (g'.reindex old new (φ h)) :=
  m.relist (Index.entries_insert (Index.entries_erase m.entries old) new h) m.roster

/-- Two states of a walk that have come equally far, in graphs with `n` elements of the first. -/
structure Walked (r : Registry) (φ : Handle → Handle) (k n : Nat) (s s' : Graph × Moves) :
    Prop where
  graph : Renumbered r φ k s.1 s'.1
  moves : s'.2 = s.2.map (Prod.map φ id)
  size : s.1.elements.size = n

theorem relocateTree_none {fuel : Nat} {h : Handle} {path : Path} {s : Graph × Moves}
    (hn : s.1.body? h = none) : relocateTree fuel h path s = s := by
  cases fuel with
  | zero => rfl
  | succ fuel => rw [Renaming.relocateTree_succ, hn]

theorem Walked.moveChild {n : Nat} {s s' : Graph × Moves}
    {walk walk' : Handle → Path → Graph × Moves → Graph × Moves} {c : Handle}
    (w : Walked r φ k n s s') (hwalk : ∀ {s s'}, Walked r φ k n s s' →
      ∀ path, Walked r φ k n (walk c path s) (walk' (φ c) path s'))
    (path : Path) :
    Walked r φ k n (Renaming.moveChild walk path s c) (Renaming.moveChild walk' path s' (φ c)) := by
  rw [Renaming.moveChild, Renaming.moveChild, w.graph.element]
  cases s.1.element? c with
  | none => exact w
  | some e =>
    have mu : Renumbered r φ k (s.1.update (·.relocate (path.nest e.name)) c)
        (s'.1.update (·.relocate (path.nest e.name)) (φ c)) :=
      w.graph.update (fun _ _ => rfl) fun _ _ => List.Subset.refl _
    refine hwalk ⟨mu.reindex e.path _ c, ?_, ?_⟩ (path.nest e.name)
    · rw [w.moves, List.map_append]
      rfl
    · exact (size_update _ _ _).trans w.size

theorem relocateTree {n : Nat} (fuel : Nat) : ∀ {s s' : Graph × Moves}, Walked r φ k n s s' →
    ∀ (h : Handle) (path : Path), n ≤ h.slot + fuel →
      Walked r φ k n (relocateTree fuel h path s) (relocateTree (fuel + k) (φ h) path s') := by
  induction fuel with
  | zero =>
    intro s s' w h path hf
    have hn : s.1.element? h = none := Array.getElem?_eq_none (w.size ▸ hf)
    have hb : s.1.body? h = none := by rw [Graph.body?, hn, Option.map_none]
    rw [relocateTree_none hb, relocateTree_none (by rw [w.graph.body?, hb, Option.map_none])]
    exact w
  | succ fuel ih =>
    intro s s' w h path hf
    rw [Nat.add_right_comm, Renaming.relocateTree_succ, Renaming.relocateTree_succ, w.graph.body?]
    cases he : s.1.element? h with
    | none =>
      rw [Graph.body?, he]
      exact w
    | some e =>
      rw [Graph.body?, he]
      simp only [Option.map_some, Body.children_renumber, List.foldl_map]
      refine List.foldl_rel w fun c hm a a' wa => ?_
      have hlt := w.graph.descends h e c he hm
      exact wa.moveChild (fun wb path => ih wb c path (by omega)) path

section Moves

variable (m : Renumbered r φ k g g') (moves : Moves)
include m

theorem path?_renumber (t : Option Handle) :
    Moves.path? (moves.map (Prod.map φ id)) (t.map φ) = moves.path? t := by
  cases t with
  | none => rfl
  | some h =>
    rw [Option.map_some, Moves.path?, Moves.path?, Option.bind_some, Option.bind_some]
    induction moves with
    | nil => rfl
    | cons move moves ih =>
      obtain ⟨h', path⟩ := move
      simp only [List.map_cons, Prod.map_apply, id_eq, List.lookup_cons, m.beq_eq, ih]

theorem corresponds_follow :
    Corresponds φ moves.follow (Moves.follow (moves.map (Prod.map φ id))) := by
  intro F r
  have hp := m.path?_renumber moves r.target
  simp only [Moves.follow, retarget, hp]
  cases moves.path? r.target <;> rfl

theorem concern_renumber (b : Body) :
    Moves.concern (moves.map (Prod.map φ id)) (b.renumber φ) = moves.concern b := by
  rw [Moves.concern, Moves.concern, b.links_renumber, List.any_map]
  refine congrArg (List.any _) (funext fun l => ?_)
  simp only [Function.comp_apply, Link.renumber, m.path?_renumber]

theorem repoint : Renumbered r φ k (g.repoint moves) (g'.repoint (moves.map (Prod.map φ id))) := by
  refine m.updateLive (fun e => ?_) fun e => ?_
  · have hc : Moves.concern (moves.map (Prod.map φ id)) (e.renumber φ).body =
        moves.concern e.body := m.concern_renumber moves e.body
    rw [hc]
    split
    · exact congrArg (fun b : Body => { e.touch with package := e.package.map φ, body := b })
        (e.body.renumber_rebind (m.corresponds_follow moves))
    · rfl
  · split
    · exact Body.children_rebind _ _
    · rfl

end Moves

theorem relocated (m : Renumbered r φ k g g') (h : Handle) (path : Path) :
    Walked r φ k g.elements.size (Graph.relocateTree g.fuel h path (g, [(h, path)]))
      (Graph.relocateTree g'.fuel (φ h) path (g', [(φ h, path)])) := by
  have hfuel : g.elements.size ≤ h.slot + g.fuel := by
    rw [fuel]
    omega
  have w : Walked r φ k g.elements.size (g, [(h, path)]) (g', [(φ h, path)]) := ⟨m, rfl, rfl⟩
  rw [m.fuel_eq]
  exact relocateTree g.fuel w h path hfuel

theorem Walked.repoint {n : Nat} {s s' : Graph × Moves} (w : Walked r φ k n s s') :
    Renumbered r φ k (s.1.repoint s.2) (s'.1.repoint s'.2) :=
  w.moves ▸ w.graph.repoint s.2

theorem rename (m : Renumbered r φ k g g') (h : Handle) (name : String) :
    SameOutcome (Renumbered r φ k) (g.rename h name) (g'.rename (φ h) name) := by
  rw [Graph.rename, Graph.rename, m.element, m.frozen]
  cases g.element? h with
  | none => exact .ok m
  | some e =>
    have hp : (e.renumber φ).path = e.path := rfl
    simp only [Option.map_some, hp, m.contains]
    cases g.frozen with
    | true => exact .error _
    | false =>
      cases Path.isSimpleName name with
      | false => exact .error _
      | true =>
        by_cases hpath : Path.join e.path.package? name = e.path
        · simp only [if_pos hpath]
          exact .ok m
        · simp only [if_neg hpath]
          cases g.index.contains (Path.join e.path.package? name) with
          | true => exact .error _
          | false =>
            have mr : Renumbered r φ k
                ((g.reindex e.path (Path.join e.path.package? name) h).update
                  (·.rename name (Path.join e.path.package? name)) h)
                ((g'.reindex e.path (Path.join e.path.package? name) (φ h)).update
                  (·.rename name (Path.join e.path.package? name)) (φ h)) :=
              (m.reindex _ _ h).update (fun _ _ => rfl) fun _ _ => List.Subset.refl _
            exact .ok (relocated mr h _).repoint

theorem resolveAll (m : Renumbered r φ k g g') :
    Renumbered r φ k g.resolveAll.1 g'.resolveAll.1 ∧ g'.resolveAll.2 = g.resolveAll.2 := by
  refine ⟨m.updateLive (fun e => ?_) fun e => Body.children_rebind _ _, ?_⟩
  · exact congrArg (fun b : Body => { e with package := e.package.map φ, body := b })
      (e.body.renumber_rebind m.corresponds_bind)
  · rw [Graph.resolveAll, Graph.resolveAll]
    simp only [m.live, List.flatMap_map, Prod.map_snd, Element.renumber, m.resolveFaults]

theorem links (m : Renumbered r φ k g g') :
    g'.links = g.links.map fun l => ⟨φ l.holder, l.link.renumber φ⟩ := by
  simp only [Graph.links, m.live, List.flatMap_map, List.map_flatMap, Prod.map_fst, Prod.map_snd,
    Element.renumber, Body.links_renumber, List.map_map]
  rfl

theorem unresolved (m : Renumbered r φ k g g') :
    g'.unresolved = g.unresolved.map fun l => ⟨φ l.holder, l.link.renumber φ⟩ := by
  rw [Graph.unresolved, Graph.unresolved, m.links, List.filter_map]
  refine congrArg _ (List.filter_congr fun l _ => ?_)
  exact Option.isNone_map

theorem dead (m : Renumbered r φ k g g') :
    g'.dead = g.dead.map fun l => ⟨φ l.holder, l.link.renumber φ⟩ := by
  rw [Graph.dead, Graph.dead, m.links, List.filter_map]
  refine congrArg _ (List.filter_congr fun l _ => ?_)
  exact Option.any_map.trans (congrArg (Option.any · _) (funext m.isDeleted))

theorem pruneAt {isDead isDead' : Handle → Bool} (hd : ∀ h, isDead' (φ h) = isDead h)
    {s s' : Graph × Nat} (hs : Renumbered r φ k s.1 s'.1 ∧ s'.2 = s.2) (h : Handle) :
    Renumbered r φ k (pruneAt isDead s h).1 (pruneAt isDead' s' (φ h)).1 ∧
      (pruneAt isDead' s' (φ h)).2 = (pruneAt isDead s h).2 := by
  obtain ⟨m, hn⟩ := hs
  rw [Graph.pruneAt, Graph.pruneAt, m.element, hn]
  cases he : s.1.element? h with
  | none => exact ⟨m, hn⟩
  | some e =>
    simp only [Option.map_some, e.prune_renumber hd, and_true]
    refine m.update (fun _ _ => rfl) fun e' he' => ?_
    obtain rfl := Option.some.inj (he.symm.trans he')
    have hc : (e.prune isDead).1.body.children = e.body.children :=
      congrArg (fun p => p.1.children) (e.post_prune isDead)
    rw [hc]
    exact List.Subset.refl _

theorem sweep (m : Renumbered r φ k g g') (hc : r.cleaners = []) :
    Renumbered r φ k g.sweep.1 g'.sweep.1 ∧ g'.sweep.2 = g.sweep.2 := by
  have hstep : ∀ h ∈ g.index.values, ∀ s s' : Graph × Nat,
      Renumbered r φ k s.1 s'.1 ∧ s'.2 = s.2 →
        Renumbered r φ k (Graph.pruneAt g.isDeleted s h).1
            (Graph.pruneAt g'.isDeleted s' (φ h)).1 ∧
          (Graph.pruneAt g'.isDeleted s' (φ h)).2 = (Graph.pruneAt g.isDeleted s h).2 :=
    fun h _ _ _ hs => pruneAt m.isDeleted hs h
  have hfold := List.foldl_rel (a := (g, 0)) (b := (g', 0)) ⟨m, rfl⟩ hstep
  rw [Graph.sweep, Graph.sweep, m.values, List.foldl_map, m.registry.1, m.registry.2, hc]
  exact hfold

theorem hashElement (m : Renumbered r φ k g g') (h : Handle) :
    Renumbered r φ k (g.hashElement h).1 (g'.hashElement (φ h)).1 ∧
      (g'.hashElement (φ h)).2 = (g.hashElement h).2 := by
  rw [Graph.hashElement, Graph.hashElement, m.element]
  cases he : g.element? h with
  | none => exact ⟨m, rfl⟩
  | some e =>
    simp only [Option.map_some, e.hash_renumber]
    cases hh : e.hash with
    | error fault => exact ⟨m, rfl⟩
    | ok given =>
      refine ⟨m.update (fun _ _ => rfl) fun e' he' => ?_, rfl⟩
      obtain rfl := Option.some.inj (he.symm.trans he')
      have hc : given.2.body.children = e.body.children :=
        congrArg (fun x => x.body.children) (Element.unhashed_of_hash hh)
      rw [hc]
      exact List.Subset.refl _

theorem hash (m : Renumbered r φ k g g') (p : Path) :
    Renumbered r φ k (g.hash p).1 (g'.hash p).1 ∧ (g'.hash p).2 = (g.hash p).2 := by
  rw [Graph.hash, Graph.hash, m.lookup]
  cases g.lookup p with
  | none => exact ⟨m, rfl⟩
  | some h => exact m.hashElement h

theorem hashAll (ls : List (Handle × Element)) : ∀ {g g' : Graph}, Renumbered r φ k g g' →
    ∀ found : Index Digest,
      Renumbered r φ k (hashAll ls found g).1
          (hashAll (ls.map (Prod.map φ (Element.renumber φ))) found g').1 ∧
        (hashAll (ls.map (Prod.map φ (Element.renumber φ))) found g').2 =
          (hashAll ls found g).2 := by
  induction ls with
  | nil => exact fun m found => ⟨m, rfl⟩
  | cons l ls ih =>
    intro g g' m found
    obtain ⟨h, e⟩ := l
    have hp : (e.renumber φ).path = e.path := rfl
    obtain ⟨mh, hr⟩ := m.hashElement h
    rw [List.map_cons, Prod.map_apply, Graph.hashAll, Graph.hashAll, e.kind_renumber, hp]
    generalize g.hashElement h = s, g'.hashElement (φ h) = s' at mh hr
    obtain ⟨a, r⟩ := s
    obtain ⟨a', r'⟩ := s'
    subst hr
    split
    · cases r' with
      | error fault => exact ⟨mh, rfl⟩
      | ok digest => exact ih mh _
    · exact ih m found

theorem hashIndex (m : Renumbered r φ k g g') :
    Renumbered r φ k g.hashIndex.1 g'.hashIndex.1 ∧ g'.hashIndex.2 = g.hashIndex.2 := by
  obtain ⟨mh, hr⟩ := hashAll g.live m .empty
  rw [Graph.hashIndex, Graph.hashIndex, m.live]
  generalize Graph.hashAll g.live .empty g = s,
    Graph.hashAll (g.live.map (Prod.map φ (Element.renumber φ))) .empty g' = s' at mh hr
  obtain ⟨a, r⟩ := s
  obtain ⟨a', r'⟩ := s'
  subst hr
  cases r' <;> exact ⟨mh, rfl⟩

end Renumbered
end ModelGraph.Graph
