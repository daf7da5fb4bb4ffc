import ModelGraph.Proofs.Sweeps
import ModelGraph.Proofs.WiredLookups

namespace ModelGraph

namespace Element

theorem prune_unhashed (isDead : Handle → Bool) (e : Element) :
    e.unhashed.prune isDead = Prod.map unhashed id (e.prune isDead) := by
  have hb : e.unhashed.body = e.body := rfl
  simp only [prune, hb]
  split <;> rfl

theorem cleaned_unhashed (isDead : Handle → Bool) (clean : Cleaner) (e : Element) :
    Graph.cleaned isDead clean e.unhashed = (Graph.cleaned isDead clean e).unhashed := by
  have hb : e.unhashed.body = e.body := rfl
  unfold Graph.cleaned
  rw [hb]
  split
  · split <;> rfl
  · rfl

theorem presentDigest_of_memoFresh {e : Element} (f : e.MemoFresh) :
    e.presentDigest = e.freshDigest := by
  rw [presentDigest, memo?]
  split
  · next n d hm =>
    split
    · next hn => exact (f n d hm).2 hn
    · rfl
  · rfl

theorem hash_unhashed {e : Element} (f : e.MemoFresh) :
    e.unhashed.hash.map Prod.fst = e.hash.map Prod.fst := by
  have hu : e.unhashed.presentDigest = e.presentDigest := (presentDigest_of_memoFresh f).symm
  have hf : e.unhashed.hashFault? = e.hashFault? := rfl
  cases h : e.hashFault? with
  | some fault => rw [hash_of_fault h, hash_of_fault (hf.trans h)]
  | none =>
    obtain ⟨x, hx, -, -⟩ := hash_of_no_fault h
    obtain ⟨y, hy, -, -⟩ := hash_of_no_fault (hf.trans h)
    rw [hx, hy, hu]
    rfl

end Element

namespace Graph

variable {g g' : Graph}

def unhashed (g : Graph) : Graph := { g with elements := g.elements.map Element.unhashed }

theorem element?_unhashed (g : Graph) (h : Handle) :
    g.unhashed.element? h = (g.element? h).map Element.unhashed := Array.getElem?_map

theorem body?_unhashed (g : Graph) : g.unhashed.body? = g.body? := by
  funext h
  rw [body?, element?_unhashed, Option.map_map]
  rfl

theorem fuel_unhashed (g : Graph) : g.unhashed.fuel = g.fuel := by
  simp [fuel, unhashed]

theorem live_unhashed (g : Graph) : g.unhashed.live = g.live.map (Prod.map id Element.unhashed) := by
  rw [live, live, List.map_filterMap]
  refine congrArg (List.filterMap · g.index.values) (funext fun h => ?_)
  simp only [element?_unhashed, Option.map_map]
  rfl

theorem isDeleted_unhashed (g : Graph) : g.unhashed.isDeleted = g.isDeleted := by
  funext h
  rw [isDeleted, element?_unhashed, Option.any_map]
  rfl

theorem update_unhashed {f : Element → Element} (hf : ∀ e, f e.unhashed = (f e).unhashed)
    (h : Handle) (g : Graph) : g.unhashed.update f h = (g.update f h).unhashed := by
  refine congrArg (fun elements => { g with elements }) (Array.ext_getElem? fun i => ?_)
  simp only [update, unhashed, Array.getElem?_map, Array.getElem?_modify]
  split
  · simp only [Option.map_map, Function.comp_def, hf]
  · rfl

theorem updateLive_unhashed {f : Element → Element} (hf : ∀ e, f e.unhashed = (f e).unhashed)
    (g : Graph) : g.unhashed.updateLive f = (g.updateLive f).unhashed :=
  List.foldl_hom unhashed fun g h => update_unhashed hf h g

theorem unhashed_update {f : Element → Element} {h : Handle}
    (hf : ∀ e, g.element? h = some e → (f e).unhashed = e.unhashed) :
    (g.update f h).unhashed = g.unhashed := by
  refine congrArg (fun elements => { g with elements }) (Array.ext_getElem? fun i => ?_)
  simp only [update, Array.getElem?_map, Array.getElem?_modify]
  split
  · next hi =>
    subst hi
    cases he : g.elements[h.slot]? with
    | none => rfl
    | some e => exact congrArg some (hf e he)
  · rfl

theorem push_unhashed (e : Element) (owner : Option Handle) (path : Path) (g : Graph) :
    g.unhashed.push e.unhashed owner path = Prod.map unhashed id (g.push e owner path) := by
  have hsize : g.unhashed.elements.size = g.elements.size := Array.size_map
  have hadded : g.unhashed.elements.push (e.unhashed.attach owner path) =
      (g.elements.push (e.attach owner path)).map Element.unhashed := by
    rw [Array.map_push]
    rfl
  cases owner with
  | none =>
    simp only [push, hsize, hadded]
    rfl
  | some o =>
    simp only [push, hsize, hadded]
    exact congrArg (·, _) (update_unhashed
      (f := fun e => { e with body := e.body.mapChildren (· ++ [⟨g.elements.size⟩]) })
      (fun _ => rfl) o { g with
        elements := g.elements.push (e.attach (some o) path)
        index := g.index.insert path ⟨g.elements.size⟩
        roster := g.roster ++ [(e.kind, ⟨g.elements.size⟩)] })

theorem ownerPath_unhashed (name : String) (owner : Option Handle) (g : Graph) :
    g.unhashed.ownerPath name owner = g.ownerPath name owner := by
  cases owner with
  | none => rfl
  | some o =>
    rw [ownerPath, ownerPath, element?_unhashed]
    cases g.element? o <;> rfl

theorem addStep_unhashed (e : Element) (owner : Option Handle) (g : Graph) :
    g.unhashed.addStep e.unhashed owner = Prod.map unhashed id (g.addStep e owner) := by
  have hf : g.unhashed.frozen = g.frozen := rfl
  have hi : g.unhashed.index = g.index := rfl
  have hn : e.unhashed.name = e.name := rfl
  simp only [addStep, addElement, ownerPath_unhashed, push_unhashed, hf, hi, hn]
  cases g.ownerPath e.name owner with
  | error fault => rfl
  | ok package =>
    simp only [ok_bind]
    split_ifs <;> rfl

theorem ensurePackage_unhashed (p : Path) (g : Graph) :
    g.unhashed.ensurePackage p = Prod.map unhashed id (g.ensurePackage p) := by
  have hpackage : ∀ h, (g.unhashed.element? h).any (·.isPackage) =
      (g.element? h).any (·.isPackage) := by
    intro h
    rw [element?_unhashed, Option.any_map]
    rfl
  have hl : g.unhashed.lookup = g.lookup := rfl
  fun_induction Graph.ensurePackage g p with
  | case1 p h hp hpack =>
    rw [Graph.ensurePackage]
    simp only [hl, hp, hpackage, hpack, if_true]
    rfl
  | case2 p h hp hpack =>
    rw [Graph.ensurePackage]
    simp only [hl, hp, hpackage, hpack, Bool.false_eq_true, if_false]
    rfl
  | case3 p hp hq =>
    rw [ensurePackage_root (g := g.unhashed) hp hq]
    exact addStep_unhashed (.new p.name (.package [])) none g
  | case4 p hp q hq a owner ha ih =>
    rw [ensurePackage_below (g := g.unhashed) hp hq, ih, ha]
    exact addStep_unhashed (.new p.name (.package [])) (some owner) a
  | case5 p hp q hq a fault ha ih =>
    rw [ensurePackage_below (g := g.unhashed) hp hq, ih, ha]
    rfl

theorem create_unhashed (p : Path) (b : Body) (g : Graph) :
    g.unhashed.create p b = Prod.map unhashed id (g.create p b) := by
  rw [create, create]
  split
  · rfl
  · split
    · exact addStep_unhashed (.new p.name b) none g
    · next q _ =>
      rw [ensurePackage_unhashed]
      obtain ⟨a, owner | fault⟩ := g.ensurePackage q
      · rfl
      · exact addStep_unhashed (.new p.name b) (some _) a

theorem leave_unhashed (h : Handle) (package : Option Handle) (g : Graph) :
    g.unhashed.leave h package = (g.leave h package).unhashed := by
  cases package with
  | none => rfl
  | some o =>
    exact update_unhashed (f := fun e => { e with body := e.body.mapChildren (·.filter (· ≠ h)) })
      (fun _ => rfl) o g

theorem retire_unhashed (h : Handle) (e : Element) (g : Graph) :
    g.unhashed.retire h e.unhashed = (g.retire h e).unhashed := by
  let marked := g.update (fun e => { e with deleted := true }) h
  have hmarked : g.unhashed.update (fun e => { e with deleted := true }) h = marked.unhashed :=
    update_unhashed (f := fun e : Element => { e with deleted := true }) (fun _ => rfl) h g
  rw [retire, hmarked]
  exact leave_unhashed h e.package { marked with
    index := marked.index.erase e.path
    roster := marked.roster.filter (· ≠ (e.kind, h)) }

theorem retireTree_unhashed (fuel : Nat) (h : Handle) (g : Graph) :
    g.unhashed.retireTree fuel h = (g.retireTree fuel h).unhashed := by
  induction fuel generalizing h g with
  | zero => rfl
  | succ fuel ih =>
    rw [retireTree, retireTree, element?_unhashed]
    cases g.element? h with
    | none => rfl
    | some e =>
      have hd : e.unhashed.deleted = e.deleted := rfl
      have hc : e.unhashed.body.children = e.body.children := rfl
      have hall : e.body.children.foldl (fun g child => retireTree fuel child g) g.unhashed =
          (e.body.children.foldl (fun g child => retireTree fuel child g) g).unhashed :=
        List.foldl_hom unhashed fun g child => ih child g
      simp only [Option.map_some, hd, hc, hall, retire_unhashed]
      split <;> rfl

theorem delete_unhashed (h : Handle) (g : Graph) :
    g.unhashed.delete h = (g.delete h).map unhashed := by
  have hf : g.unhashed.frozen = g.frozen := rfl
  rw [delete, delete, element?_unhashed, hf, fuel_unhashed, retireTree_unhashed]
  cases g.element? h with
  | none => rfl
  | some e =>
    have hd : e.unhashed.deleted = e.deleted := rfl
    have hp : e.unhashed.path = e.path := rfl
    simp only [Option.map_some, hd, hp]
    split_ifs <;> rfl

theorem moveChild_unhashed {walk : Handle → Path → Graph × Moves → Graph × Moves} {c : Handle}
    (hwalk : ∀ path s, walk c path (Prod.map unhashed id s) = Prod.map unhashed id (walk c path s))
    (path : Path) (s : Graph × Moves) :
    Renaming.moveChild walk path (Prod.map unhashed id s) c =
      Prod.map unhashed id (Renaming.moveChild walk path s c) := by
  rw [Renaming.moveChild, Renaming.moveChild, Prod.map_fst, element?_unhashed]
  cases s.1.element? c with
  | none => rfl
  | some e =>
    have hmoved := update_unhashed (f := (·.relocate (path.nest e.name))) (fun _ => rfl) c s.1
    simp only [Option.map_some]
    rw [← hwalk]
    exact congrArg (fun g : Graph => walk c (path.nest e.name)
      (g.reindex e.path (path.nest e.name) c, s.2 ++ [(c, path.nest e.name)])) hmoved

theorem relocateTree_unhashed (fuel : Nat) (h : Handle) (path : Path) (s : Graph × Moves) :
    relocateTree fuel h path (Prod.map unhashed id s) =
      Prod.map unhashed id (relocateTree fuel h path s) := by
  induction fuel generalizing h path s with
  | zero => rfl
  | succ fuel ih =>
    rw [Renaming.relocateTree_succ, Renaming.relocateTree_succ, Prod.map_fst, body?_unhashed]
    cases s.1.body? h with
    | none => rfl
    | some b =>
      exact List.foldl_hom (Prod.map unhashed id) fun s c =>
        moveChild_unhashed (fun path s => ih c path s) path s

theorem repoint_unhashed (moves : Moves) (g : Graph) :
    g.unhashed.repoint moves = (g.repoint moves).unhashed := by
  refine updateLive_unhashed (fun e => ?_) g
  have hb : e.unhashed.body = e.body := rfl
  rw [hb]
  split <;> rfl

theorem rename_unhashed (h : Handle) (name : String) (g : Graph) :
    g.unhashed.rename h name = (g.rename h name).map unhashed := by
  have hf : g.unhashed.frozen = g.frozen := rfl
  have hi : g.unhashed.index = g.index := rfl
  rw [rename, rename, element?_unhashed, hf, hi]
  cases g.element? h with
  | none => rfl
  | some e =>
    have hp : e.unhashed.path = e.path := rfl
    let path := Path.join e.path.package? name
    have hrenamed : (g.unhashed.reindex e.path path h).update (·.rename name path) h =
        ((g.reindex e.path path h).update (·.rename name path) h).unhashed :=
      update_unhashed (f := (·.rename name path)) (fun _ => rfl) h (g.reindex e.path path h)
    have hmoved (renamed : Graph) :
        relocateTree renamed.fuel h path (renamed.unhashed, [(h, path)]) =
          Prod.map unhashed id (relocateTree renamed.fuel h path (renamed, [(h, path)])) :=
      relocateTree_unhashed renamed.fuel h path (renamed, [(h, path)])
    simp only [Option.map_some, hp, hrenamed, fuel_unhashed, hmoved, Prod.map_fst, Prod.map_snd,
      id_eq, path, repoint_unhashed]
    split_ifs <;> rfl

theorem resolve_unhashed (g : Graph) : g.unhashed.resolve = g.resolve := by
  funext l
  have hl : g.unhashed.lookup = g.lookup := rfl
  rw [resolve, resolve, hl]
  cases g.lookup l.path with
  | none => rfl
  | some h =>
    simp only [element?_unhashed]
    cases g.element? h <;> rfl

theorem resolveAll_unhashed (g : Graph) :
    g.unhashed.resolveAll = Prod.map unhashed id g.resolveAll := by
  have hbind : g.unhashed.bind = g.bind := by
    funext family r
    rw [bind, bind, resolve_unhashed]
  have hfaults : g.unhashed.resolveFaults = g.resolveFaults := by
    funext b
    refine congrArg (b.links.filterMap ·) (funext fun l => ?_)
    rw [resolveFault?, resolveFault?, resolve_unhashed]
  refine Prod.ext ?_ ?_
  · rw [resolveAll, resolveAll, hbind]
    exact updateLive_unhashed (f := fun e => { e with body := e.body.rebind g.bind }) (fun _ => rfl) g
  · rw [resolveAll, resolveAll, live_unhashed, hfaults, List.flatMap_map]
    rfl

theorem pruneAt_unhashed (isDead : Handle → Bool) (s : Graph × Nat) (h : Handle) :
    pruneAt isDead (Prod.map unhashed id s) h = Prod.map unhashed id (pruneAt isDead s h) := by
  have hpruned := update_unhashed (f := fun e => (e.prune isDead).1)
    (fun e => congrArg Prod.fst (e.prune_unhashed isDead)) h s.1
  have hremoved (e : Element) : (e.unhashed.prune isDead).2 = (e.prune isDead).2 := by
    rw [Element.prune_unhashed]
    rfl
  simp only [pruneAt_eq, Prod.map_fst, Prod.map_snd, Prod.map_apply, id_eq, hpruned,
    element?_unhashed, Option.map_map, Function.comp_def, hremoved]

theorem sweep_unhashed (g : Graph) : g.unhashed.sweep = Prod.map unhashed id g.sweep := by
  have hi : g.unhashed.index = g.index := rfl
  have hr : g.unhashed.registry = g.registry := rfl
  have hall (s : Graph × Nat) : g.index.values.foldl (pruneAt g.isDeleted) (Prod.map unhashed id s) =
      Prod.map unhashed id (g.index.values.foldl (pruneAt g.isDeleted) s) :=
    List.foldl_hom (Prod.map unhashed id) fun s h => pruneAt_unhashed g.isDeleted s h
  have hpruned : g.index.values.foldl (pruneAt g.isDeleted) (g.unhashed, 0) =
      Prod.map unhashed id (g.index.values.foldl (pruneAt g.isDeleted) (g, 0)) := hall (g, 0)
  have hcleaned (pruned : Graph) :
      g.registry.cleaners.foldl (fun g' c => g'.updateLive (cleaned g.isDeleted c)) pruned.unhashed =
        (g.registry.cleaners.foldl (fun g' c => g'.updateLive (cleaned g.isDeleted c))
          pruned).unhashed :=
    List.foldl_hom unhashed fun g' c => updateLive_unhashed (Element.cleaned_unhashed g.isDeleted c) g'
  simp only [sweep, isDeleted_unhashed, hi, hr, hpruned, Prod.map_fst, Prod.map_snd, Prod.map_apply,
    hcleaned, id_eq]

theorem freeze_unhashed (g : Graph) : g.unhashed.freeze = g.freeze.unhashed := by
  simp only [freeze, unhashed, Array.map_map]
  rfl

theorem dispose_unhashed (g : Graph) : g.unhashed.dispose = g.dispose.unhashed := by
  simp only [dispose, unhashed, Array.map_map]
  rfl

theorem edit_unhashed (f : Body → Body) (h : Handle) (g : Graph) :
    g.unhashed.edit f h = (g.edit f h).unhashed :=
  update_unhashed (f := (·.edit f)) (fun _ => rfl) h g

theorem wire_unhashed (h : Handle) (g : Graph) :
    g.unhashed.wire h = Prod.map unhashed id (g.wire h) := by
  have k : Keeps Element.unwired g g.unhashed := by
    refine ⟨rfl, rfl, rfl, fun h => ?_⟩
    rw [element?_unhashed, Option.map_map]
    rfl
  rw [wire, wire, k.wireBody_eq, k.wireFaults_eq]
  exact congrArg (·, _) (update_unhashed (f := fun e => { e with body := g.wireBody h e.body })
    (fun _ => rfl) h g)

theorem unhashed_hashElement (h : Handle) (g : Graph) : (g.hashElement h).1.unhashed = g.unhashed := by
  rw [hashElement]
  split
  · rfl
  · next e he =>
    split
    · next d e' hh =>
      refine unhashed_update fun x hx => ?_
      rw [Option.some.inj (hx.symm.trans he)]
      exact Element.unhashed_of_hash hh
    · rfl

theorem unhashed_hashAll (ls : List (Handle × Element)) (found : Index Digest) (g : Graph) :
    (hashAll ls found g).1.unhashed = g.unhashed := by
  induction ls generalizing found g with
  | nil => rfl
  | cons l ls ih =>
    have hl := unhashed_hashElement l.1 g
    rw [hashAll]
    split
    · split
      · next hh =>
        rw [hh] at hl
        exact (ih _ _).trans hl
      · next hh =>
        rw [hh] at hl
        exact hl
    · exact ih found g

theorem unhashed_hashIndex (g : Graph) : g.hashIndex.1.unhashed = g.unhashed := by
  have hall := unhashed_hashAll g.live .empty g
  rw [hashIndex]
  split <;>
  · next hh =>
    rw [hh] at hall
    exact hall

theorem MemosFresh.hashElement_unhashed (f : g.MemosFresh) (h : Handle) :
    (g.unhashed.hashElement h).2 = (g.hashElement h).2 := by
  have hanswer : ∀ (g : Graph) (e : Element), g.element? h = some e →
      (g.hashElement h).2 = e.hash.map Prod.fst := by
    intro g e he
    rw [Graph.hashElement, he]
    cases hh : e.hash <;> simp only [hh] <;> rfl
  cases he : g.element? h with
  | none => simp only [Graph.hashElement, element?_unhashed, he, Option.map_none]
  | some e =>
    have hu : g.unhashed.element? h = some e.unhashed := by
      rw [element?_unhashed, he]
      rfl
    rw [hanswer g e he, hanswer _ _ hu]
    exact Element.hash_unhashed (f h e he)

theorem gather_unhashed {es : List Element} (f : ∀ e ∈ es, e.MemoFresh) (found : Index Digest) :
    gather (es.map Element.unhashed) found = gather es found := by
  induction es generalizing found with
  | nil => rfl
  | cons e es ih =>
    have hk : e.unhashed.kind = e.kind := rfl
    have hf : e.unhashed.hashFault? = e.hashFault? := rfl
    have hp : e.unhashed.path = e.path := rfl
    have hd : e.unhashed.presentDigest = e.presentDigest :=
      (Element.presentDigest_of_memoFresh (f e List.mem_cons_self)).symm
    simp only [List.map_cons, gather, hk, hf, hp, hd,
      ih fun e he => f e (List.mem_cons_of_mem _ he)]

theorem MemosFresh.hashIndex_unhashed (f : g.MemosFresh) :
    g.unhashed.hashIndex.2 = g.hashIndex.2 := by
  have hes : g.unhashed.live.map Prod.snd = (g.live.map Prod.snd).map Element.unhashed := by
    simp only [live_unhashed, List.map_map, Function.comp_def, Prod.map_snd]
  rw [(hashIndex_eq_gather _).2, (hashIndex_eq_gather _).2, hes, gather_unhashed]
  intro e he
  obtain ⟨l, hl, rfl⟩ := List.mem_map.mp he
  exact f l.1 l.2 (element?_of_mem_live hl)

end Graph
end ModelGraph
