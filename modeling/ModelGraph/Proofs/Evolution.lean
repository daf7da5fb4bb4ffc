import ModelGraph.Proofs.GraphUpdates
import ModelGraph.Proofs.Outcomes

namespace ModelGraph.Graph

variable {g g' g'' : Graph} {R : Element → Element → Prop}

/-- Two graphs with elements at the same handles, where each of the first has become the one of the
second in a way that `R` allows. -/
def Evolves (R : Element → Element → Prop) (g g' : Graph) : Prop :=
  ∀ h, Option.Rel R (g.element? h) (g'.element? h)

/-- What may take no step, or several steps. -/
structure Lasting (R : Element → Element → Prop) : Prop where
  refl : ∀ e, R e e
  trans : ∀ {e e' e''}, R e e' → R e' e'' → R e e''

theorem lasting_eq {α : Type} (π : Element → α) : Lasting fun e e' => π e' = π e :=
  ⟨fun _ => rfl, fun h h' => h'.trans h⟩

theorem Evolves.element? (v : Evolves R g g') {h : Handle} {e' : Element}
    (he : g'.element? h = some e') : ∃ e, g.element? h = some e ∧ R e e' := by
  have hrel := v h
  rw [he] at hrel
  generalize hx : g.element? h = x at hrel
  cases hrel with
  | some hr => exact ⟨_, rfl, hr⟩

theorem Evolves.imp {R' : Element → Element → Prop} (v : Evolves R g g')
    (h : ∀ {e e'}, R e e' → R' e e') : Evolves R' g g' := by
  intro k
  have hrel := v k
  generalize g.element? k = x, g'.element? k = y at hrel
  cases hrel with
  | none => exact .none
  | some hr => exact .some (h hr)

theorem Evolves.map_eq {α : Type} {π : Element → α} (v : Evolves (fun e e' => π e' = π e) g g')
    (h : Handle) : (g'.element? h).map π = (g.element? h).map π := by
  have hrel := v h
  generalize g.element? h = x, g'.element? h = y at hrel
  cases hrel with
  | some he => exact congrArg some he
  | none => rfl

theorem evolves_of_map_eq {α : Type} {π : Element → α}
    (hπ : ∀ h, (g'.element? h).map π = (g.element? h).map π) :
    Evolves (fun e e' => π e' = π e) g g' := by
  intro h
  have he := hπ h
  generalize g.element? h = x, g'.element? h = y at he
  cases x with
  | none =>
    obtain rfl := Option.map_eq_none_iff.mp he
    exact .none
  | some e =>
    obtain ⟨e', rfl, hee⟩ := Option.map_eq_some_iff.mp he
    exact .some hee

theorem evolves_map {f : Element → Element} (hf : ∀ e, R e (f e))
    (h : g'.elements = g.elements.map f) : Evolves R g g' := by
  intro h'
  rw [Graph.element?, Graph.element?, h, Array.getElem?_map]
  cases g.elements[h'.slot]? with
  | none => exact .none
  | some e => exact .some (hf e)

theorem relocateTree_induction {Q : Graph → Prop}
    (hstep : ∀ (g : Graph) child e path, Q g → g.element? child = some e →
      Q ((g.update (·.relocate path) child).reindex e.path path child))
    (fuel : Nat) (h : Handle) (path : Path) (state : Graph × Moves) (hq : Q state.1) :
    Q (relocateTree fuel h path state).1 := by
  induction fuel generalizing h path state with
  | zero => exact hq
  | succ fuel ih =>
    rw [relocateTree]
    split
    · exact hq
    · refine List.foldlRecOn (motive := fun (state : Graph × Moves) => Q state.1) _ _ hq ?_
      rintro ⟨g, moves⟩ hg child _
      simp only
      split
      · exact hg
      · next e he => exact ih child _ (_, _) (hstep g child e _ hg he)

namespace Lasting

variable (l : Lasting R)
include l

theorem evolves_refl (g : Graph) : Evolves R g g := by
  intro h
  cases g.element? h with
  | none => exact .none
  | some e => exact .some (l.refl e)

theorem evolves_trans (v : Evolves R g g') (v' : Evolves R g' g'') : Evolves R g g'' := by
  intro h
  have hrel := v h
  have hrel' := v' h
  generalize g.element? h = x, g'.element? h = y, g''.element? h = z at hrel hrel'
  cases hrel with
  | none => exact hrel'
  | some hr =>
    cases hrel' with
    | some hr' => exact .some (l.trans hr hr')

theorem evolves_of_elements (h : g'.elements = g.elements) : Evolves R g g' := by
  intro h'
  rw [Graph.element?, Graph.element?, h]
  exact l.evolves_refl g h'

theorem evolves_update {f : Element → Element} {h : Handle}
    (hf : ∀ e, g.element? h = some e → R e (f e)) : Evolves R g (g.update f h) := by
  intro h'
  rw [element?_update]
  by_cases hh : h' = h
  · subst hh
    rw [if_pos rfl]
    cases he : g.element? h' with
    | none => exact .none
    | some e => exact .some (hf e he)
  · rw [if_neg hh]
    exact l.evolves_refl g h'

theorem evolves_foldl {α β : Type} (graph : α → Graph) {step : α → β → α} {bs : List β}
    (hs : ∀ a, ∀ b ∈ bs, Evolves R (graph a) (graph (step a b))) (a : α) :
    Evolves R (graph a) (graph (bs.foldl step a)) := by
  induction bs generalizing a with
  | nil => exact l.evolves_refl _
  | cons b bs ih =>
    have hstep := hs a b List.mem_cons_self
    exact l.evolves_trans hstep (ih (fun a c hc => hs a c (List.mem_cons_of_mem b hc)) (step a b))

theorem evolves_updateLive {f : Element → Element} (hf : ∀ e, R e (f e)) (g : Graph) :
    Evolves R g (g.updateLive f) :=
  l.evolves_foldl id (fun _ _ _ => l.evolves_update fun e _ => hf e) g

section Deletion

variable (hdeleted : ∀ e : Element, R e { e with deleted := true })
  (hchildren : ∀ (e : Element) f, R e { e with body := e.body.mapChildren f })
include hdeleted hchildren

theorem evolves_retire (h : Handle) (e : Element) (g : Graph) : Evolves R g (g.retire h e) := by
  let marked := g.update (fun e => { e with deleted := true }) h
  let unlisted := { marked with
    index := marked.index.erase e.path
    roster := marked.roster.filter (· ≠ (e.kind, h)) }
  have hmarked : Evolves R g marked := l.evolves_update fun e _ => hdeleted e
  have hunlisted : Evolves R marked unlisted := l.evolves_of_elements rfl
  have hleft : Evolves R unlisted (unlisted.leave h e.package) := by
    cases e.package with
    | none => exact l.evolves_refl unlisted
    | some o => exact l.evolves_update fun e _ => hchildren e _
  exact l.evolves_trans (l.evolves_trans hmarked hunlisted) hleft

theorem evolves_retireTree (fuel : Nat) (h : Handle) (g : Graph) :
    Evolves R g (retireTree fuel h g) := by
  induction fuel generalizing h g with
  | zero => exact l.evolves_refl g
  | succ fuel ih =>
    rw [retireTree]
    split
    · exact l.evolves_refl g
    · split
      · exact l.evolves_refl g
      · next e _ _ =>
        have howned : Evolves R g
            (e.body.children.foldl (fun g child => retireTree fuel child g) g) :=
          l.evolves_foldl id (fun g child _ => ih child g) g
        exact l.evolves_trans howned (l.evolves_retire hdeleted hchildren h e _)

theorem evolves_delete (h : Handle) (g : Graph) :
    Evolves R g ((g.delete h).toOption.getD g) := by
  rw [delete]
  split
  · exact l.evolves_refl g
  · split
    · exact l.evolves_refl g
    · split
      · exact l.evolves_refl g
      · exact l.evolves_retireTree hdeleted hchildren _ h g

end Deletion

theorem evolves_sweep (hpruned : ∀ isDead e, R e (e.prune isDead).1) (g : Graph)
    (hcleaned : ∀ isDead, ∀ clean ∈ g.registry.cleaners, ∀ e, R e (cleaned isDead clean e)) :
    Evolves R g g.sweep.1 := by
  have hstep : ∀ (state : Graph × Nat), ∀ h ∈ g.index.values,
      Evolves R state.1 (pruneAt g.isDeleted state h).1 := by
    intro state h _
    rw [pruneAt]
    split
    · exact l.evolves_refl _
    · next e he =>
      apply l.evolves_update
      intro e' he'
      rw [← Option.some.inj (he.symm.trans he')]
      exact hpruned g.isDeleted e
  exact l.evolves_trans (l.evolves_foldl Prod.fst hstep (g, 0))
    (l.evolves_foldl id
      (fun g' clean hc => l.evolves_updateLive (hcleaned g.isDeleted clean hc) g') _)

theorem evolves_relocateTree (hmoved : ∀ e path, R e (e.relocate path)) (fuel : Nat) (h : Handle)
    (path : Path) (state : Graph × Moves) :
    Evolves R state.1 (relocateTree fuel h path state).1 := by
  refine relocateTree_induction (Q := Evolves R state.1) ?_ fuel h path state (l.evolves_refl _)
  intro g child e path v _
  let moved := g.update (·.relocate path) child
  have hchild : Evolves R g moved := l.evolves_update fun e _ => hmoved e _
  have hindexed : Evolves R moved (moved.reindex e.path path child) := l.evolves_of_elements rfl
  exact l.evolves_trans v (l.evolves_trans hchild hindexed)

theorem evolves_repoint
    (hedited : ∀ (e : Element) (moves : Moves), R e (e.edit (·.rebind moves.follow)))
    (moves : Moves) (g : Graph) : Evolves R g (g.repoint moves) := by
  apply l.evolves_updateLive
  intro e
  split
  · exact hedited e _
  · exact l.refl e

end Lasting

/-- The graph in which an element has a new name, while what it owns has not moved. -/
def renamed (h : Handle) (path : Path) (name : String) (new : Path) (g : Graph) : Graph :=
  (g.reindex path new h).update (·.rename name new) h

/-- A renaming that succeeds has nothing to do, or gives the element its name, moves what it owns
and lets the references follow. -/
theorem rename_steps {h : Handle} {e : Element} (he : g.element? h = some e) {name : String}
    (hr : g.rename h name = .ok g') :
    g' = g ∨ ∃ new moves, g' = (relocateTree g.fuel h new
      (g.renamed h e.path name new, moves)).1.repoint
        (relocateTree g.fuel h new (g.renamed h e.path name new, moves)).2 := by
  have hfuel (new : Path) : (g.renamed h e.path name new).fuel = g.fuel := by
    simp [fuel, renamed, reindex]
  unfold rename at hr
  simp only [he] at hr
  obtain ⟨-, hr⟩ := check_eq_ok.mp hr
  obtain ⟨-, hr⟩ := check_eq_ok.mp hr
  split at hr
  · exact .inl (pure_eq_ok.mp hr).symm
  · obtain ⟨-, hr⟩ := check_eq_ok.mp hr
    let new := Path.join e.path.package? name
    refine .inr ⟨new, [(h, new)], ?_⟩
    rw [← hfuel new]
    exact (pure_eq_ok.mp hr).symm

theorem Lasting.evolves_rename (l : Lasting R)
    (hrenamed : ∀ (e : Element) name path, R e (e.rename name path))
    (hmoved : ∀ e path, R e (e.relocate path))
    (hedited : ∀ (e : Element) (moves : Moves), R e (e.edit (·.rebind moves.follow)))
    (h : Handle) (name : String) (g : Graph) : Evolves R g ((g.rename h name).toOption.getD g) := by
  cases hr : g.rename h name with
  | error fault => exact l.evolves_refl g
  | ok g' =>
    change Evolves R g g'
    cases he : g.element? h with
    | none =>
      simp only [rename, he, Except.ok.injEq] at hr
      exact hr ▸ l.evolves_refl g
    | some e =>
      obtain rfl | ⟨new, moves, rfl⟩ := rename_steps he hr
      · exact l.evolves_refl _
      · have hindexed : Evolves R g (g.reindex e.path new h) := l.evolves_of_elements rfl
        have hroot : Evolves R g (g.renamed h e.path name new) :=
          l.evolves_trans hindexed (l.evolves_update fun e _ => hrenamed e _ _)
        have hrelocated :=
          l.evolves_relocateTree hmoved g.fuel h new (g.renamed h e.path name new, moves)
        exact l.evolves_trans (l.evolves_trans hroot hrelocated) (l.evolves_repoint hedited _ _)

end ModelGraph.Graph
