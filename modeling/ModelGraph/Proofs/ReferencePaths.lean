import ModelGraph.Proofs.Changes
import ModelGraph.Proofs.Links
import ModelGraph.Proofs.Occurrences

namespace ModelGraph

/-- The cleaners of a registry put no bound references into what they clean. -/
def Registry.KeepsLinks (r : Registry) : Prop :=
  ∀ clean ∈ r.cleaners, ∀ isDead x y, clean isDead x = some y →
    ∀ l ∈ y.links, l.target = none ∨ l ∈ x.links

/-- What an element keeps, beside its path, while its body loses references or takes unbound ones.
Nothing is said about the body of an element that is deleted. -/
structure Element.Inherits (e e' : Element) : Prop where
  path : e'.path = e.path
  alive : e'.deleted = false → e.deleted = false
  links : e'.deleted = false → ∀ l ∈ e'.body.links, l.target = none ∨ l ∈ e.body.links

theorem Element.Inherits.refl (e : Element) : e.Inherits e := ⟨rfl, id, fun _ _ hl => .inr hl⟩

theorem Element.Inherits.trans {e e' e'' : Element} (i : e.Inherits e') (i' : e'.Inherits e'') :
    e.Inherits e'' where
  path := i'.path.trans i.path
  alive := fun h => i.alive (i'.alive h)
  links := by
    intro h l hl
    cases i'.links h l hl with
    | inl hnone => exact .inl hnone
    | inr hl => exact i.links (i'.alive h) l hl

namespace Change

/-- The bodies that a change brings in hold no bound references but those that were there. -/
def InsertsUnbound (g : Graph) : Change → Prop
  | .create _ body => ∀ l ∈ body.links, l.target = none
  | .add e _ => ∀ l ∈ e.body.links, l.target = none
  | .edit f h => ∀ b, g.body? h = some b → ∀ l ∈ (f b).links, l.target = none ∨ l ∈ b.links
  | _ => True

end Change

namespace Graph

variable {g g' : Graph}

def InStep (g : Graph) (l : Link) : Prop :=
  ∀ t, l.target = some t → ∃ x, g.element? t = some x ∧ x.path = l.path

/-- The references of all elements that are alive are in step, those to deleted elements too. -/
def PathsInStep (g : Graph) : Prop := ∀ h e, g.LiveAt h e → ∀ l ∈ e.body.links, g.InStep l

theorem InStep.of_unbound {l : Link} (h : l.target = none) : g.InStep l := by
  intro t ht
  rw [h] at ht
  cases ht

theorem InStep.referencePath {l : Link} (s : g.InStep l) : g.referencePath l = l.path := by
  unfold Graph.referencePath
  cases ht : l.target with
  | none => rfl
  | some t =>
    obtain ⟨x, hx, hp⟩ := s t ht
    rw [Option.bind_some, hx]
    exact hp

/-- A graph whose elements inherit from those of another one. -/
structure Inherits (g g' : Graph) : Prop where
  size : g'.elements.size = g.elements.size
  element : ∀ h e', g'.element? h = some e' → ∃ e, g.element? h = some e ∧ e.Inherits e'

namespace Inherits

theorem refl (g : Graph) : Inherits g g := ⟨rfl, fun _ e he => ⟨e, he, .refl e⟩⟩

theorem trans {g'' : Graph} (i : Inherits g g') (i' : Inherits g' g'') : Inherits g g'' where
  size := i'.size.trans i.size
  element := by
    intro h e'' he''
    obtain ⟨e', he', hi'⟩ := i'.element h e'' he''
    obtain ⟨e, he, hi⟩ := i.element h e' he'
    exact ⟨e, he, hi.trans hi'⟩

theorem update {f : Element → Element} {h : Handle}
    (hf : ∀ e, g.element? h = some e → e.Inherits (f e)) : Inherits g (g.update f h) where
  size := size_update f h g
  element := by
    intro h' e' he'
    rw [element?_update] at he'
    by_cases hh : h' = h
    · subst hh
      rw [if_pos rfl, Option.map_eq_some_iff] at he'
      obtain ⟨e, he, rfl⟩ := he'
      exact ⟨e, he, hf e he⟩
    · rw [if_neg hh] at he'
      exact ⟨e', he', .refl e'⟩

theorem foldl {β : Type} {step : Graph → β → Graph} {l : List β}
    (hs : ∀ g, ∀ b ∈ l, Inherits g (step g b)) (g : Graph) : Inherits g (l.foldl step g) := by
  induction l generalizing g with
  | nil => exact refl g
  | cons b l ih =>
    exact (hs g b (by simp)).trans (ih (fun g c hc => hs g c (List.mem_cons_of_mem b hc)) (step g b))

theorem updateLive {f : Element → Element} (hf : ∀ e : Element, e.Inherits (f e)) (g : Graph) :
    Inherits g (g.updateLive f) :=
  foldl (fun _ _ _ => update fun e _ => hf e) g

theorem inStep (i : Inherits g g') {l : Link} (s : g.InStep l) : g'.InStep l := by
  intro t ht
  obtain ⟨x, hx, hp⟩ := s t ht
  have hlt : t.slot < g'.elements.size := i.size ▸ slot_lt_of_element? hx
  have hx' : g'.element? t = some g'.elements[t.slot] := Array.getElem?_eq_getElem hlt
  obtain ⟨y, hy, hi⟩ := i.element t _ hx'
  rw [Option.some.inj (hy.symm.trans hx)] at hi
  exact ⟨_, hx', hi.path.trans hp⟩

theorem pathsInStep (i : Inherits g g') (s : g.PathsInStep) : g'.PathsInStep := by
  intro h e' hl' l hl
  obtain ⟨e, he, hi⟩ := i.element h e' hl'.1
  cases hi.links hl'.2 l hl with
  | inl hnone => exact .of_unbound hnone
  | inr hold => exact i.inStep (s h e ⟨he, hi.alive hl'.2⟩ l hold)

end Inherits

theorem inherits_freeze (g : Graph) : Inherits g g.freeze where
  size := by simp [freeze]
  element := by
    intro h e' he'
    rw [element?_freeze, Option.map_eq_some_iff] at he'
    obtain ⟨e, he, rfl⟩ := he'
    exact ⟨e, he, rfl, id, fun _ _ hl => .inr hl⟩

theorem inherits_pruneAt (isDead : Handle → Bool) (state : Graph × Nat) (h : Handle) :
    Inherits state.1 (pruneAt isDead state h).1 := by
  unfold pruneAt
  cases he : state.1.element? h with
  | none => exact .refl state.1
  | some e =>
    apply Inherits.update
    intro e' he'
    obtain rfl := Option.some.inj (he.symm.trans he')
    simp only [Element.prune]
    split <;>
      exact ⟨rfl, id, fun _ l hl => .inr (e.body.links_prune isDead hl)⟩

theorem inherits_prune (isDead : Handle → Bool) (hs : List Handle) (state : Graph × Nat) :
    Inherits state.1 (hs.foldl (pruneAt isDead) state).1 := by
  induction hs generalizing state with
  | nil => exact .refl state.1
  | cons h hs ih => exact (inherits_pruneAt isDead state h).trans (ih _)

theorem inherits_cleaned {isDead : Handle → Bool} {clean : Cleaner}
    (hc : ∀ x y, clean isDead x = some y → ∀ l ∈ y.links, l.target = none ∨ l ∈ x.links)
    (e : Element) : e.Inherits (cleaned isDead clean e) := by
  unfold cleaned
  split
  · next x hx =>
    split
    · next y hy =>
      refine ⟨rfl, id, fun _ l hl => ?_⟩
      rw [hx]
      exact hc x y hy l hl
    · exact .refl e
  · exact .refl e

theorem inherits_sweep (hr : g.registry.KeepsLinks) : Inherits g g.sweep.1 := by
  refine (inherits_prune g.isDeleted g.index.values (g, 0)).trans (Inherits.foldl ?_ _)
  intro g' clean hc
  exact Inherits.updateLive (inherits_cleaned (hr clean hc g.isDeleted)) g'

theorem inherits_edit {f : Body → Body} {h : Handle}
    (hf : ∀ b, g.body? h = some b → ∀ l ∈ (f b).links, l.target = none ∨ l ∈ b.links) :
    Inherits g (g.edit f h) := by
  apply Inherits.update
  intro e he
  refine ⟨rfl, id, fun _ => hf e.body ?_⟩
  rw [body?, he, Option.map_some]

theorem Thinned.inherits {bound : Nat} (t : Thinned bound g g') : Inherits g g' where
  size := t.size
  element := by
    intro h e' he'
    obtain ⟨e, he, ht⟩ := t.exists_element he'
    refine ⟨e, he, ht.path, fun hd => ?_, fun _ l hl => .inr (ht.links ▸ hl)⟩
    cases hde : e.deleted with
    | false => rfl
    | true =>
      rw [ht.deleted hde] at hd
      cases hd

theorem Fits.pathsInStep {e : Element} {owner : Option Handle} {path : Path}
    (f : g.Fits e owner path) (he : ∀ l ∈ e.body.links, l.target = none) (s : g.PathsInStep) :
    (g.push e owner path).1.PathsInStep := by
  intro h x hx l hl
  cases f.liveAt_push hx with
  | inl hnew =>
    rw [hnew.2] at hl
    exact .of_unbound (he l hl)
  | inr hold =>
    obtain ⟨y, hy, rfl⟩ := hold
    rw [links_grown] at hl
    intro t ht
    obtain ⟨z, hz, hp⟩ := s h y hy l hl t ht
    have hne : t ≠ ⟨g.elements.size⟩ := by
      rintro rfl
      exact absurd (slot_lt_of_element? hz) (Nat.lt_irrefl _)
    refine ⟨grown owner ⟨g.elements.size⟩ t z, ?_, (path_grown _ _ _ _).trans hp⟩
    rw [f.element?_push, if_neg hne, hz, Option.map_some]

theorem Grows.pathsInStep (a : Grows (fun _ b => ∀ l ∈ b.links, l.target = none) g g')
    (s : g.PathsInStep) : g'.PathsInStep := by
  induction a with
  | refl => exact s
  | push _ f hb ih => exact f.pathsInStep hb ih

theorem onLink_bind (g : Graph) (l : Link) :
    Rebinding.onLink g.bind l =
      match g.resolve l with
      | .ok h => { l with target := some h }
      | .error _ => l := by
  unfold Rebinding.onLink bind
  have hl : (⟨l.path, l.target⟩ : Reference l.family).link = l := rfl
  rw [hl]
  cases g.resolve l <;> rfl

theorem pathsInStep_resolveAll (w : g.WellFormed) (s : g.PathsInStep) :
    g.resolveAll.1.PathsInStep := by
  have hkeep := (keeps_resolveAll g).place
  have hmove : ∀ l, g.InStep l → g.resolveAll.1.InStep l := by
    intro l hl t ht
    obtain ⟨x, hx, hp⟩ := hl t ht
    obtain ⟨x', hx', hpl⟩ := hkeep.element? hx
    exact ⟨x', hx', (congrArg ElementPlace.path hpl).trans hp⟩
  intro h e' hl' l' hm
  obtain ⟨e, he, rfl⟩ := (w.liveAt_updateLive (f := fun e => { e with body := e.body.rebind g.bind })
    fun _ => rfl).mp hl'
  have hlinks : l' ∈ (e.body.rebind g.bind).links := hm
  rw [Body.links_rebind, List.mem_map] at hlinks
  obtain ⟨l, hl, rfl⟩ := hlinks
  rw [onLink_bind]
  cases hr : g.resolve l with
  | error fault => exact hmove l (s h e he l hl)
  | ok t =>
    obtain ⟨x, hx, hp, _⟩ := (resolve_eq_ok w).mp hr
    refine hmove _ ?_
    rintro t' ⟨⟩
    exact ⟨x, hx.1, hp⟩

theorem onLink_follow (moves : Moves) (l : Link) :
    Rebinding.onLink moves.follow l =
      match moves.path? l.target with
      | some path => { l with path }
      | none => l := by
  simp only [Rebinding.onLink, Moves.follow]
  cases moves.path? l.target <;> rfl

theorem links_repoint (w : g.WellFormed) (moves : Moves) {h : Handle} {e' : Element}
    (hl' : (g.repoint moves).LiveAt h e') :
    ∃ e, g.LiveAt h e ∧ e'.body.links = e.body.links.map (Rebinding.onLink moves.follow) := by
  obtain ⟨e, he, rfl⟩ := (w.liveAt_updateLive fun e => by split <;> rfl).mp hl'
  refine ⟨e, he, ?_⟩
  by_cases hc : moves.concern e.body = true
  · rw [if_pos hc]
    exact Body.links_rebind moves.follow e.body
  · rw [if_neg hc]
    have hfix : ∀ l ∈ e.body.links, Rebinding.onLink moves.follow l = l := by
      intro l hl
      rw [onLink_follow]
      cases hp : moves.path? l.target with
      | none => rfl
      | some path =>
        refine absurd ?_ hc
        rw [Moves.concern, List.any_eq_true]
        exact ⟨l, hl, by rw [hp]; rfl⟩
    rw [List.map_congr_left hfix, List.map_id']

theorem pathsInStep_rename (r : Renaming g) (s : g.PathsInStep) :
    (r.outcome.1.repoint r.outcome.2).PathsInStep := by
  have hpart := r.follows_outcome.partial_
  have hkeep := (keeps_repoint r.outcome.2 r.outcome.1).place
  intro h e' hl' l' hm
  obtain ⟨e₁, hl₁, hlinks⟩ := links_repoint r.wellFormed_outcome r.outcome.2 hl'
  obtain ⟨e, hl, _, _, _, hbody⟩ := hpart.liveAt_old hl₁
  rw [hlinks, hbody, List.mem_map] at hm
  obtain ⟨l, hml, rfl⟩ := hm
  have hstep := s h e hl l hml
  -- The target of a reference is where the moves have taken it.
  have htarget : ∀ t, l.target = some t → ∃ x, (r.outcome.1.repoint r.outcome.2).element? t = some x ∧
      x.path = (List.lookup t r.outcome.2).getD l.path := by
    intro t ht
    obtain ⟨y, hy, hp⟩ := hstep t ht
    obtain ⟨y₁, hy₁, hp₁, _⟩ := hpart.element t y hy
    obtain ⟨x, hx, hpl⟩ := hkeep.element? hy₁
    exact ⟨x, hx, (congrArg ElementPlace.path hpl).trans (hp₁.trans (by rw [hp]))⟩
  rw [onLink_follow]
  cases ht : l.target with
  | none => exact .of_unbound ht
  | some t =>
    obtain ⟨x, hx, hp⟩ := htarget t ht
    have hpath : r.outcome.2.path? (some t) = List.lookup t r.outcome.2 := rfl
    rw [hpath]
    cases hlook : List.lookup t r.outcome.2 with
    | none =>
      intro t' ht'
      rw [ht] at ht'
      cases ht'
      exact ⟨x, hx, by rw [hp, hlook, Option.getD_none]⟩
    | some q =>
      rintro t' ⟨⟩
      exact ⟨x, hx, by rw [hp, hlook, Option.getD_some]⟩

theorem PathsInStep.run (s : g.PathsInStep) (w : g.WellFormed) (hr : g.registry.KeepsLinks)
    {c : Change} (hc : c.Allowed g) (hu : c.InsertsUnbound g) : (c.run g).PathsInStep := by
  cases c with
  | create path body => exact (grows_create w path (by simp [Body.links]) hu hc).pathsInStep s
  | add e owner => exact (grows_addStep g owner hc.2.1 hc.1 hc.2.2 hu).pathsInStep s
  | ensure path => exact (grows_ensurePackage w path hc (by simp [Body.links])).pathsInStep s
  | delete h =>
    cases run_delete w h with
    | inl hsame =>
      rw [hsame]
      exact s
    | inr hgone => exact hgone.thinned.inherits.pathsInStep s
  | rename h name =>
    cases run_rename w hc with
    | inl hsame =>
      rw [hsame]
      exact s
    | inr hmoved =>
      obtain ⟨r, hrun⟩ := hmoved
      rw [hrun]
      exact pathsInStep_rename r s
  | resolve => exact pathsInStep_resolveAll w s
  | sweep => exact (inherits_sweep hr).pathsInStep s
  | freeze => exact (inherits_freeze g).pathsInStep s
  | edit f h => exact (inherits_edit hu).pathsInStep s

theorem pathsInStep_new (r : Registry) : (new r).PathsInStep :=
  (grows_new (by simp [Body.links]) r).pathsInStep fun h e hl => absurd hl (not_liveAt_empty r h e)

theorem Reached.pathsInStep {r : Registry} (hr : r.KeepsLinks)
    (a : Reached (fun g c => c.Allowed g ∧ c.InsertsUnbound g) r g) : g.PathsInStep := by
  induction a with
  | new => exact pathsInStep_new r
  | change a hc ih =>
    have a := a.mono fun _ _ h => h.1
    exact ih.run a.wellFormed (a.registry_eq.symm ▸ hr) hc.1 hc.2

end Graph
end ModelGraph
