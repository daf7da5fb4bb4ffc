import ModelGraph.Proofs.IndexShifts
import ModelGraph.Proofs.OwnerTrees
import ModelGraph.Proofs.Relocation

namespace ModelGraph.Graph

variable {g g' : Graph} {h : Handle} {e : Element} {path : Path} {fuel : Nat}

def livePath? (g : Graph) (h : Handle) : Option Path :=
  ((g.element? h).filter fun e => !e.deleted).map Element.path

theorem livePath?_eq_some : g.livePath? h = some path ↔ ∃ e, g.LiveAt h e ∧ e.path = path := by
  simp only [livePath?, LiveAt, Option.map_eq_some_iff, Option.filter_eq_some_iff,
    Bool.not_eq_true']

def directory (g : Graph) : Directory := ⟨g.index, g.livePath?⟩

theorem Keeps.directory_eq (k : Keeps Element.post g g') : g'.directory = g.directory := by
  have hpath : g'.livePath? = g.livePath? := by
    funext h
    refine Option.ext fun path => ?_
    rw [livePath?_eq_some, livePath?_eq_some]
    constructor
    · rintro ⟨e, hl, rfl⟩
      obtain ⟨e', hl', hplace⟩ := k.symm.place.liveAt hl
      exact ⟨e', hl', congrArg ElementPlace.path hplace⟩
    · rintro ⟨e, hl, rfl⟩
      obtain ⟨e', hl', hplace⟩ := k.place.liveAt hl
      exact ⟨e', hl', congrArg ElementPlace.path hplace⟩
  rw [directory, directory, k.index, hpath]

theorem directory_reindex {f : Element → Element} (hl : g.LiveAt h e)
    (hd : (f e).deleted = e.deleted) :
    ((g.update f h).reindex e.path (f e).path h).directory =
      g.directory.shift h e.path (f e).path := by
  have hpath : (g.update f h).livePath? = (g.directory.shift h e.path (f e).path).path? := by
    funext k
    rw [livePath?, element?_update]
    by_cases hk : k = h
    · subst hk
      have halive : (!(f e).deleted) = true := by rw [hd, hl.2, Bool.not_false]
      rw [if_pos rfl, hl.1, Option.map_some, Option.filter_some, if_pos halive]
      exact (if_pos rfl).symm
    · rw [if_neg hk]
      exact (Directory.path?_shift_of_ne hk e.path (f e).path g.directory).symm
  exact congrArg (Directory.mk _) hpath

open Renaming Directory

theorem shifts_foldl {children : List Handle} (hc : ∀ c ∈ children, g.IsOwner h c)
    (hwalk : ∀ c path state, KeepsTies g state.1 →
      Shifts (g.descendants fuel c) state.1.directory (relocateTree fuel c path state).1.directory)
    (path : Path) (state : Graph × Moves) (v : KeepsTies g state.1) :
    Shifts (children.flatMap fun c => c :: g.descendants fuel c) state.1.directory
      (children.foldl (moveChild (relocateTree fuel) path) state).1.directory := by
  induction children generalizing state with
  | nil => exact .nil _
  | cons c children ih =>
    have l := lasting_eq Element.ties
    obtain ⟨e, hl, -⟩ := v.isOwner_iff.mpr (hc c List.mem_cons_self)
    let new := path.nest e.name
    let moved := (state.1.update (·.relocate new) c).reindex e.path new c
    have hchild : moveChild (relocateTree fuel) path state c =
        relocateTree fuel c new (moved, state.2 ++ [(c, new)]) := by
      rw [moveChild]
      simp only [hl.1]
      rfl
    have vmoved : KeepsTies g moved := by
      have vupdate : KeepsTies state.1 (state.1.update (·.relocate new) c) :=
        l.evolves_update fun _ _ => rfl
      exact l.evolves_trans v (l.evolves_trans vupdate (l.evolves_of_elements rfl))
    -- The walk below this child leaves the ties alone, so the first graph still tells what is owned.
    have vchild := l.evolves_trans vmoved
      (l.evolves_relocateTree (fun _ _ => rfl) fuel c new (moved, state.2 ++ [(c, new)]))
    have hmoved : moved.directory = state.1.directory.shift c e.path new :=
      directory_reindex (f := (·.relocate new)) hl rfl
    have hbelow := hwalk c new (moved, state.2 ++ [(c, new)]) vmoved
    rw [hmoved] at hbelow
    rw [List.foldl_cons, List.flatMap_cons, hchild]
    refine Shifts.append (.cons (livePath?_eq_some.mpr ⟨e, hl, rfl⟩) hbelow) ?_
    exact ih (fun d hd => hc d (List.mem_cons_of_mem c hd)) _ vchild

theorem Forested.shifts_relocateTree (f : g.Forested) (fuel : Nat) (h : Handle) (path : Path)
    (state : Graph × Moves) (v : KeepsTies g state.1) :
    Shifts (g.descendants fuel h) state.1.directory
      (relocateTree fuel h path state).1.directory := by
  induction fuel generalizing h path state with
  | zero => exact .nil _
  | succ fuel ih =>
    rw [relocateTree_succ, descendants, ← v.childrenOf_eq, childrenOf]
    cases hb : state.1.body? h with
    | none => exact .nil _
    | some body =>
      refine shifts_foldl (fun c hc => (f.mem_iff h c).mp ?_) ih path state v
      rw [← v.childrenOf_eq, childrenOf, hb]
      exact hc

theorem keepsTies_rename (h : Handle) (name : String) (g : Graph) :
    KeepsTies g ((g.rename h name).toOption.getD g) := by
  refine (lasting_eq Element.ties).evolves_rename (fun _ _ _ => rfl) (fun _ _ => rfl) ?_ h name g
  intro e moves
  simp only [Element.ties, Element.edit, Element.kind, Body.kind_rebind, Body.children_rebind]
  rfl

theorem Forested.shifts_rename (f : g.Forested) (hl : g.LiveAt h e) {name : String}
    (hr : g.rename h name = .ok g') :
    g' = g ∨ g'.roster = g.roster ∧ Shifts (g.subtree h) g.directory g'.directory := by
  obtain rfl | ⟨new, moves, rfl⟩ := rename_steps hl.1 hr
  · exact .inl rfl
  · let renamed := g.renamed h e.path name new
    let walked := relocateTree g.fuel h new (renamed, moves)
    have hfollow := keeps_repoint walked.2 walked.1
    refine .inr ⟨hfollow.roster.trans ?_, ?_⟩
    · exact relocateTree_induction (Q := fun g' => g'.roster = g.roster) (fun _ _ _ _ hq _ => hq) _ _
        _ _ rfl
    · have l := lasting_eq Element.ties
      have vindex : KeepsTies g (g.reindex e.path new h) := l.evolves_of_elements rfl
      have vrenamed : KeepsTies g renamed :=
        l.evolves_trans vindex (l.evolves_update fun _ _ => rfl)
      have hmoved : renamed.directory = g.directory.shift h e.path new :=
        directory_reindex (f := (·.rename name new)) hl rfl
      have hbelow := f.shifts_relocateTree g.fuel h new (renamed, moves) vrenamed
      rw [hmoved] at hbelow
      rw [hfollow.directory_eq]
      exact .cons (livePath?_eq_some.mpr ⟨e, hl, rfl⟩) hbelow

end ModelGraph.Graph
