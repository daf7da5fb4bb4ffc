import ModelGraph.Proofs.Changes
import ModelGraph.Proofs.RenumberedBodies

namespace ModelGraph

variable {φ : Handle → Handle}

theorem lookup_map_snd {α β γ : Type} [BEq α] (f : β → γ) (a : α) (l : List (α × β)) :
    (l.map (Prod.map id f)).lookup a = (l.lookup a).map f := by
  induction l with
  | nil => rfl
  | cons e l ih =>
    obtain ⟨b, c⟩ := e
    simp only [List.map_cons, Prod.map_apply, id_eq, List.lookup_cons, ih]
    split <;> rfl

theorem Index.put_map {α β : Type} (f : α → β) (p : Path) (a : α) (entries : List (Path × α)) :
    put p (f a) (entries.map (Prod.map id f)) = (put p a entries).map (Prod.map id f) := by
  induction entries with
  | nil => rfl
  | cons e entries ih =>
    obtain ⟨q, b⟩ := e
    simp only [List.map_cons, Prod.map_apply, id_eq, put, ih]
    split <;> rfl

namespace Index

variable {α β : Type} {f : α → β} {x : Index α} {x' : Index β}

theorem entries_insert (h : x'.entries = x.entries.map (Prod.map id f)) (p : Path) (a : α) :
    (x'.insert p (f a)).entries = (x.insert p a).entries.map (Prod.map id f) := by
  simp only [insert, h, put_map]

theorem entries_erase (h : x'.entries = x.entries.map (Prod.map id f)) (p : Path) :
    (x'.erase p).entries = (x.erase p).entries.map (Prod.map id f) := by
  simp only [erase, h, List.filter_map]
  rfl

end Index

namespace Graph

/-- The second graph holds each element of the first one at the handle that `φ` gives, and `k`
elements more. What is yet to come will have the next free handle in both graphs, which share their
registry. -/
structure Renumbered (r : Registry) (φ : Handle → Handle) (k : Nat) (g g' : Graph) : Prop where
  injective : ∀ h h', φ h = φ h' → h = h'
  fresh : ∀ h, g.elements.size ≤ h.slot → φ h = ⟨h.slot + k⟩
  size : g'.elements.size = g.elements.size + k
  element : ∀ h, g'.element? (φ h) = (g.element? h).map (Element.renumber φ)
  entries : g'.index.entries = g.index.entries.map (Prod.map id φ)
  roster : g'.roster = g.roster.map (Prod.map id φ)
  registry : g.registry = r ∧ g'.registry = r
  frozen : g'.frozen = g.frozen
  /-- What a package owns came after it. -/
  descends : ∀ o p c, g.element? o = some p → c ∈ p.body.children → o.slot < c.slot

namespace Renumbered

variable {r : Registry} {k : Nat} {g g' : Graph}

section LookUps

variable (m : Renumbered r φ k g g')
include m

theorem fuel_eq : g'.fuel = g.fuel + k := by
  rw [fuel, fuel, m.size]
  omega

theorem beq_eq (h h' : Handle) : (φ h == φ h') = (h == h') := by
  by_cases hh : h = h'
  · rw [hh, beq_self_eq_true, beq_self_eq_true]
  · rw [beq_eq_false_iff_ne.mpr hh, beq_eq_false_iff_ne.mpr fun he => hh (m.injective h h' he)]

theorem eq_iff {h h' : Handle} : φ h = φ h' ↔ h = h' := ⟨m.injective h h', congrArg φ⟩

theorem next : φ ⟨g.elements.size⟩ = ⟨g'.elements.size⟩ := by
  rw [m.fresh ⟨g.elements.size⟩ (Nat.le_refl _), m.size]

theorem element_none {h : Handle} (hn : g.element? h = none) : g'.element? (φ h) = none := by
  rw [m.element, hn]
  rfl

theorem element_some {h : Handle} {e : Element} (he : g.element? h = some e) :
    g'.element? (φ h) = some (e.renumber φ) := by
  rw [m.element, he]
  rfl

theorem body? (h : Handle) : g'.body? (φ h) = (g.body? h).map (Body.renumber φ) := by
  rw [Graph.body?, Graph.body?, m.element, Option.map_map, Option.map_map]
  rfl

theorem isDeleted (h : Handle) : g'.isDeleted (φ h) = g.isDeleted h := by
  rw [Graph.isDeleted, Graph.isDeleted, m.element, Option.any_map]
  rfl

theorem pathOf (h : Handle) : g'.pathOf (φ h) = g.pathOf h := by
  rw [Graph.pathOf, Graph.pathOf, m.element]
  cases g.element? h <;> rfl

theorem referencePath (l : Link) : g'.referencePath (l.renumber φ) = g.referencePath l := by
  rw [Graph.referencePath, Graph.referencePath, Link.renumber]
  cases l.target with
  | none => rfl
  | some h =>
    simp only [Option.map_some, Option.bind_some, m.element]
    cases g.element? h <;> rfl

theorem lookup (p : Path) : g'.lookup p = (g.lookup p).map φ := by
  rw [Graph.lookup, Index.get?, m.entries, lookup_map_snd]
  rfl

theorem contains (p : Path) : g'.index.contains p = g.index.contains p := by
  have hl := congrArg Option.isSome (m.lookup p)
  rwa [Option.isSome_map] at hl

theorem elementAt? (p : Path) :
    g'.elementAt? p = (g.elementAt? p).map (Element.renumber φ) := by
  rw [Graph.elementAt?, Graph.elementAt?, m.lookup]
  cases g.lookup p with
  | none => rfl
  | some h => exact m.element h

theorem elementOfKind (p : Path) (kind : Kind) :
    g'.elementOfKind p kind = (g.elementOfKind p kind).map (Element.renumber φ) := by
  rw [Graph.elementOfKind, Graph.elementOfKind, m.elementAt?]
  cases g.elementAt? p with
  | none => rfl
  | some e =>
    simp only [Option.map_some, Option.filter_some, Element.kind_renumber]
    cases e.kind == kind <;> rfl

theorem elementOfFamily (p : Path) (F : Family) :
    g'.elementOfFamily p F = (g.elementOfFamily p F).map (Element.renumber φ) := by
  rw [Graph.elementOfFamily, Graph.elementOfFamily, m.elementAt?]
  cases g.elementAt? p with
  | none => rfl
  | some e =>
    simp only [Option.map_some, Option.filter_some, Element.admits_renumber]
    cases F.admits e.body <;> rfl

theorem values : g'.index.values = g.index.values.map φ := by
  rw [Index.values, m.entries, List.map_map, Index.values, List.map_map]
  rfl

theorem live : g'.live = g.live.map (Prod.map φ (Element.renumber φ)) := by
  rw [Graph.live, Graph.live, m.values, List.filterMap_map, List.map_filterMap]
  refine congrArg (List.filterMap · _) (funext fun h => ?_)
  simp only [Function.comp_apply, m.element, Option.map_map]
  rfl

theorem ofKind (kind : Kind) :
    g'.ofKind kind = (g.ofKind kind).map (Prod.map φ (Element.renumber φ)) := by
  rw [Graph.ofKind, Graph.ofKind, m.roster, List.filter_map, List.filterMap_map, List.map_filterMap]
  refine congrArg (List.filterMap · _) (funext fun post => ?_)
  simp only [Function.comp_apply, Prod.map_snd, m.element, Option.map_map]
  rfl

theorem resolve (l : Link) : g'.resolve (l.renumber φ) = (g.resolve l).map φ := by
  have hp : (l.renumber φ).path = l.path := rfl
  rw [Graph.resolve, Graph.resolve, hp, m.lookup]
  cases g.lookup l.path with
  | none => rfl
  | some h =>
    simp only [Option.map_some, m.element]
    cases g.element? h with
    | none => rfl
    | some e =>
      simp only [Option.map_some, Link.renumber, Element.admits_renumber, Element.kind_renumber]
      split <;> rfl

theorem corresponds_bind : Corresponds φ g.bind g'.bind := by
  intro F r
  have hl : (retarget φ F r).link = r.link.renumber φ := rfl
  rw [bind, bind, hl, m.resolve]
  cases g.resolve r.link <;> rfl

theorem resolveFaults (b : Body) : g'.resolveFaults (b.renumber φ) = g.resolveFaults b := by
  rw [Graph.resolveFaults, Graph.resolveFaults, b.links_renumber, List.filterMap_map]
  refine congrArg (List.filterMap · _) (funext fun l => ?_)
  simp only [Function.comp_apply, resolveFault?, m.resolve]
  cases g.resolve l <;> rfl

end LookUps

section Updates

theorem update (m : Renumbered r φ k g g') {f f' : Element → Element} {h : Handle}
    (hf : ∀ e, g.element? h = some e → (f e).renumber φ = f' (e.renumber φ))
    (hc : ∀ e, g.element? h = some e → (f e).body.children ⊆ e.body.children) :
    Renumbered r φ k (g.update f h) (g'.update f' (φ h)) where
  injective := m.injective
  fresh := by
    rw [size_update]
    exact m.fresh
  size := by
    rw [size_update, size_update]
    exact m.size
  element := by
    intro i
    rw [element?_update, element?_update, m.element]
    by_cases hi : i = h
    · subst hi
      rw [if_pos rfl, if_pos rfl]
      cases he : g.element? i with
      | none => rfl
      | some e => exact congrArg some (hf e he).symm
    · rw [if_neg hi, if_neg (mt (m.injective i h) hi)]
  entries := m.entries
  roster := m.roster
  registry := m.registry
  frozen := m.frozen
  descends := by
    intro o p c hp hm
    rw [element?_update] at hp
    split at hp
    · next ho =>
      subst ho
      obtain ⟨e, he, rfl⟩ := Option.map_eq_some_iff.mp hp
      exact m.descends o e c he (hc e he hm)
    · exact m.descends o p c hp hm

theorem updateLive (m : Renumbered r φ k g g') {f f' : Element → Element}
    (hf : ∀ e, (f e).renumber φ = f' (e.renumber φ))
    (hc : ∀ e, (f e).body.children = e.body.children) :
    Renumbered r φ k (g.updateLive f) (g'.updateLive f') := by
  rw [Graph.updateLive, Graph.updateLive, m.values]
  generalize g.index.values = hs
  induction hs generalizing g g' with
  | nil => exact m
  | cons h hs ih =>
    exact ih (m.update (fun e _ => hf e) fun e _ => hc e ▸ List.Subset.refl _)

theorem relist (m : Renumbered r φ k g g') {x x' : Index Handle}
    {posts posts' : List (Kind × Handle)}
    (hx : x'.entries = x.entries.map (Prod.map id φ)) (hp : posts' = posts.map (Prod.map id φ)) :
    Renumbered r φ k { g with index := x, roster := posts }
      { g' with index := x', roster := posts' } :=
  ⟨m.injective, m.fresh, m.size, m.element, hx, hp, m.registry, m.frozen, m.descends⟩

theorem mem_children_append {b : Body} {c x : Handle}
    (hm : c ∈ (b.mapChildren (· ++ [x])).children) : c ∈ b.children ∨ c = x := by
  cases b with
  | package children =>
    rcases List.mem_append.mp hm with hm | hm
    · exact .inl hm
    · exact .inr (List.mem_singleton.mp hm)
  | _ => exact absurd hm List.not_mem_nil

theorem push (m : Renumbered r φ k g g') {e : Element} (he : e.body.children = [])
    {owner : Option Handle} (ho : ∀ o, owner = some o → ∃ p, g.element? o = some p) (path : Path) :
    Renumbered r φ k (g.push e owner path).1 (g'.push (e.renumber φ) (owner.map φ) path).1 := by
  have hlt : ∀ o, owner = some o → o.slot < g.elements.size := fun o h =>
    (ho o h).elim fun _ hp => slot_lt_of_element? hp
  have hlt' : ∀ o, owner.map φ = some o → o.slot < g'.elements.size := by
    intro o' h
    obtain ⟨o, hw, rfl⟩ := Option.map_eq_some_iff.mp h
    obtain ⟨p, hp⟩ := ho o hw
    exact slot_lt_of_element? (m.element_some hp)
  have hsize : (g.push e owner path).1.elements.size = g.elements.size + 1 := by
    cases owner <;> simp [Graph.push]
  have hsize' : (g'.push (e.renumber φ) (owner.map φ) path).1.elements.size =
      g'.elements.size + 1 := by
    cases owner <;> simp [Graph.push]
  refine ⟨m.injective, ?_, ?_, ?_, ?_, ?_, ?_, ?_, ?_⟩
  · intro h hh
    exact m.fresh h (by omega)
  · rw [hsize, hsize', m.size]
    omega
  · intro h
    rw [element?_push _ _ _ _ _ hlt, element?_push _ _ _ _ _ hlt', ← m.next]
    simp only [m.eq_iff]
    by_cases hh : h = ⟨g.elements.size⟩
    · rw [if_pos hh, if_pos hh]
      rfl
    · rw [if_neg hh, if_neg hh]
      by_cases hw : owner = some h
      · rw [if_pos hw, if_pos (by rw [hw]; rfl), m.element, Option.map_map, Option.map_map]
        refine congrArg (Option.map · _) (funext fun p => ?_)
        have happend : ∀ l : List Handle,
            (l ++ [Handle.mk g.elements.size]).map φ = l.map φ ++ [φ (Handle.mk g.elements.size)] :=
          fun l => List.map_append
        exact congrArg (fun b : Body => { p with package := p.package.map φ, body := b })
          (@Body.renumber_mapChildren φ (· ++ [_]) (· ++ [_]) happend p.body).symm
      · rw [if_neg hw, if_neg, m.element]
        intro hw'
        obtain ⟨o, rfl, ho'⟩ := Option.map_eq_some_iff.mp hw'
        exact hw (congrArg some (m.injective o h ho'))
  · rw [index_push, index_push, ← m.next]
    exact Index.entries_insert m.entries path _
  · rw [roster_push, roster_push, m.roster, List.map_append, e.kind_renumber, ← m.next]
    rfl
  · rw [registry_push, registry_push]
    exact m.registry
  · cases owner <;> exact m.frozen
  · intro o p c hp hm
    rw [element?_push _ _ _ _ _ hlt] at hp
    split at hp
    · cases hp
      rw [Element.attach, he] at hm
      exact absurd hm List.not_mem_nil
    · split at hp
      · next hw =>
        obtain ⟨q, hq, rfl⟩ := Option.map_eq_some_iff.mp hp
        rcases mem_children_append hm with hm | rfl
        · exact m.descends o q c hq hm
        · exact hlt o hw
      · exact m.descends o p c hp hm

end Updates

section Additions

theorem ownerPath (m : Renumbered r φ k g g') (name : String) (owner : Option Handle) :
    g'.ownerPath name (owner.map φ) = g.ownerPath name owner := by
  cases owner with
  | none => rfl
  | some o =>
    rw [Option.map_some, Graph.ownerPath, Graph.ownerPath, m.element]
    cases g.element? o with
    | none => rfl
    | some p =>
      simp only [Option.map_some, p.isPackage_renumber]
      rfl

variable {e : Element}

theorem addStep (m : Renumbered r φ k g g') (he : e.body.children = []) (owner : Option Handle) :
    Renumbered r φ k (g.addStep e owner).1 (g'.addStep (e.renumber φ) (owner.map φ)).1 ∧
      (g'.addStep (e.renumber φ) (owner.map φ)).2 = (g.addStep e owner).2.map φ := by
  have hname : (e.renumber φ).name = e.name := rfl
  unfold Graph.addStep Graph.addElement
  rw [hname, m.ownerPath, m.frozen]
  cases ho : g.ownerPath e.name owner with
  | error fault => exact ⟨m, rfl⟩
  | ok package =>
    simp only [ok_bind, m.contains]
    cases g.frozen with
    | true => exact ⟨m, rfl⟩
    | false =>
      cases Path.isSimpleName e.name with
      | false => exact ⟨m, rfl⟩
      | true =>
        cases g.index.contains (Path.join package e.name) with
        | true => exact ⟨m, rfl⟩
        | false =>
          have hlive := (ownerPath_eq_ok ho).2
          have hpush := m.push he (fun o hw => (hlive o hw).imp fun _ hp => hp.1.1)
            (Path.join package e.name)
          have hnew : (g'.push (e.renumber φ) (owner.map φ) (Path.join package e.name)).2 =
              φ (g.push e owner (Path.join package e.name)).2 := by
            rw [snd_push, snd_push, m.next]
          exact ⟨hpush, congrArg Except.ok hnew⟩

theorem ensurePackage (m : Renumbered r φ k g g') (p : Path) :
    Renumbered r φ k (g.ensurePackage p).1 (g'.ensurePackage p).1 ∧
      (g'.ensurePackage p).2 = (g.ensurePackage p).2.map φ := by
  have hpackage (h : Handle) : (g'.element? (φ h)).any (·.isPackage) =
      (g.element? h).any (·.isPackage) := by
    rw [m.element, Option.any_map]
    exact congrArg (Option.any · _) (funext Element.isPackage_renumber)
  fun_induction Graph.ensurePackage g p with
  | case1 p h hl hp =>
    rw [Graph.ensurePackage, m.lookup, hl]
    simp only [Option.map_some, hpackage, hp, if_true]
    exact ⟨m, rfl⟩
  | case2 p h hl hp =>
    rw [Graph.ensurePackage, m.lookup, hl]
    simp only [Option.map_some, hpackage, hp, Bool.false_eq_true, if_false]
    exact ⟨m, rfl⟩
  | case3 p hl hq =>
    have hl' : g'.lookup p = none := by rw [m.lookup, hl, Option.map_none]
    rw [ensurePackage_root hl' hq]
    exact m.addStep (e := .new p.name (.package [])) rfl none
  | case4 p hl q hq a owner ha ih =>
    have hl' : g'.lookup p = none := by rw [m.lookup, hl, Option.map_none]
    rw [ensurePackage_below hl' hq]
    rw [ha] at ih
    obtain ⟨ma, hr⟩ := ih
    generalize g'.ensurePackage q = s' at ma hr
    obtain ⟨a', r'⟩ := s'
    subst hr
    exact ma.addStep (e := .new p.name (.package [])) rfl (some owner)
  | case5 p hl q hq a fault ha ih =>
    have hl' : g'.lookup p = none := by rw [m.lookup, hl, Option.map_none]
    rw [ensurePackage_below hl' hq]
    rw [ha] at ih
    obtain ⟨ma, hr⟩ := ih
    generalize g'.ensurePackage q = s' at ma hr
    obtain ⟨a', r'⟩ := s'
    subst hr
    exact ⟨ma, rfl⟩

theorem create (m : Renumbered r φ k g g') (p : Path) {b : Body} (hb : b.children = []) :
    Renumbered r φ k (g.create p b).1 (g'.create p (b.renumber φ)).1 ∧
      (g'.create p (b.renumber φ)).2 = (g.create p b).2.map φ := by
  rw [Graph.create, Graph.create]
  cases p.fault? with
  | some fault => exact ⟨m, rfl⟩
  | none =>
    cases p.package? with
    | none => exact m.addStep (e := .new p.name b) hb none
    | some q =>
      obtain ⟨ma, hr⟩ := m.ensurePackage q
      simp only
      generalize g.ensurePackage q = s, g'.ensurePackage q = s' at ma hr
      obtain ⟨a, r⟩ := s
      obtain ⟨a', r'⟩ := s'
      subst hr
      cases r with
      | error fault => exact ⟨ma, rfl⟩
      | ok owner => exact ma.addStep (e := .new p.name b) hb (some owner)

end Additions

end Renumbered
end Graph
end ModelGraph
