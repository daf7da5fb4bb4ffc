import ModelGraph.Proofs.Changes

namespace ModelGraph.Graph

variable {g g' : Graph} {d : Handle} {e : Element}

/-- What is alive in two graphs is the same: the same paths are those of the same elements, which are
enumerated in the same order, all of them and those of a kind, and no deleted element is found by
its path unless it was before. -/
structure SameLive (g g' : Graph) : Prop where
  lookup : ∀ p, g'.lookup p = g.lookup p
  live : g'.live.map Prod.fst = g.live.map Prod.fst
  ofKind : ∀ k, (g'.ofKind k).map Prod.fst = (g.ofKind k).map Prod.fst
  deleted : ∀ p h, g'.lookup p = some h → g'.isDeleted h = true →
    g.lookup p = some h ∧ g.isDeleted h = true

theorem SameLive.refl (g : Graph) : SameLive g g :=
  ⟨fun _ => rfl, rfl, fun _ => rfl, fun _ _ hl hd => ⟨hl, hd⟩⟩

theorem WellFormed.children_of_deleted (w : g.WellFormed) (he : g.element? d = some e)
    (hd : e.deleted = true) : e.body.children = [] := by
  refine List.eq_nil_iff_forall_not_mem.mpr fun c hc => ?_
  obtain ⟨x, hx, ho⟩ := w.owned d e c he hc
  obtain ⟨o, hlive, -⟩ := w.owner c x d hx ho
  rw [Option.some.inj (he.symm.trans hlive.1), hlive.2] at hd
  cases hd

theorem WellFormed.lookup_ne_deleted (w : g.WellFormed) (he : g.element? d = some e)
    (hd : e.deleted = true) (p : Path) : g.lookup p ≠ some d := by
  intro hl
  obtain ⟨x, hx, -⟩ := (w.lookup_iff p d).mp hl
  rw [Option.some.inj (he.symm.trans hx.1), hx.2] at hd
  cases hd

theorem map_fst_ofKind (g : Graph) (k : Kind) : (g.ofKind k).map Prod.fst =
    ((g.roster.filter (·.1 == k)).map Prod.snd).filter fun h => (g.element? h).isSome := by
  rw [ofKind]
  generalize g.roster.filter (·.1 == k) = posts
  induction posts with
  | nil => rfl
  | cons post posts ih =>
    rw [List.map_cons, List.filter_cons, List.filterMap_cons]
    cases g.element? post.2 with
    | none => simpa using ih
    | some e => simpa using ih

/-- A renaming that fails, or has nothing to do. -/
def Inert (g : Graph) (e : Element) (name : String) : Prop :=
  g.frozen = true ∨ Path.isSimpleName name = false ∨ Path.join e.path.package? name = e.path ∨
    ∃ h, g.lookup (Path.join e.path.package? name) = some h

theorem rename_inert (he : g.element? d = some e) {name : String} (hi : Inert g e name) :
    (Change.rename d name).run g = g := by
  rw [Change.run]
  cases hr : g.rename d name with
  | error fault => rfl
  | ok g' =>
    unfold rename at hr
    simp only [he] at hr
    obtain ⟨hfrozen, hr⟩ := check_eq_ok.mp hr
    obtain ⟨hsimple, hr⟩ := check_eq_ok.mp hr
    split at hr
    · exact (pure_eq_ok.mp hr).symm
    · next hmoves =>
      obtain ⟨hfree, -⟩ := check_eq_ok.mp hr
      have hfree : g.lookup (Path.join e.path.package? name) = none :=
        Index.contains_eq_false_iff.mp (by simpa using hfree)
      rcases hi with hi | hi | hi | ⟨h, hi⟩
      · exact absurd hi hfrozen
      · simp [hi] at hsimple
      · exact absurd hi hmoves
      · rw [hfree] at hi
        cases hi

/-- The graph after a renaming of a deleted element. There is nothing that moves along with it. -/
def misplaced (d : Handle) (e : Element) (name : String) (g : Graph) : Graph :=
  let path := Path.join e.path.package? name
  ((g.reindex e.path path d).update (·.rename name path) d).repoint [(d, path)]

theorem relocateTree_of_childless {fuel : Nat} {path : Path} {state : Graph × Moves} {b : Body}
    (hb : state.1.body? d = some b) (hc : b.children = []) :
    relocateTree fuel d path state = state := by
  cases fuel with
  | zero => rfl
  | succ fuel =>
    rw [Renaming.relocateTree_succ, hb]
    simp only [hc, List.foldl_nil]

theorem rename_deleted (w : g.WellFormed) (he : g.element? d = some e) (hd : e.deleted = true)
    {name : String} (hi : ¬Inert g e name) : g.rename d name = .ok (g.misplaced d e name) := by
  simp only [Inert, not_or, Bool.not_eq_true, Bool.not_eq_false, not_exists] at hi
  obtain ⟨hfrozen, hsimple, hmoves, hfree⟩ := hi
  have hfree : g.index.contains (Path.join e.path.package? name) = false :=
    Index.contains_eq_false_iff.mpr (Option.eq_none_iff_forall_ne_some.mpr hfree)
  have hbody : ((g.reindex e.path (Path.join e.path.package? name) d).update
      (·.rename name (Path.join e.path.package? name)) d).body? d = some e.body := by
    rw [body?, element?_update, if_pos rfl]
    exact congrArg (Option.map _) (congrArg (Option.map _) he)
  unfold rename
  simp only [he]
  refine check_eq_ok.mpr ⟨by simp [hfrozen], check_eq_ok.mpr ⟨by simp [hsimple], ?_⟩⟩
  rw [if_neg hmoves]
  refine check_eq_ok.mpr ⟨by simp [hfree], ?_⟩
  rw [relocateTree_of_childless hbody (w.children_of_deleted he hd)]
  rfl

section Misplaced

variable {name : String}

theorem lookup_misplaced (p : Path) : (g.misplaced d e name).lookup p =
    if p = Path.join e.path.package? name then some d
    else if p = e.path then none else g.lookup p := by
  rw [misplaced, lookup, (keeps_repoint _ _).index, index_update, reindex, Index.get?_insert,
    Index.get?_erase]
  rfl

theorem map_deleted_misplaced (h : Handle) :
    ((g.misplaced d e name).element? h).map Element.deleted =
      (g.element? h).map Element.deleted := by
  have hrepoint := (((keeps_repoint [(d, Path.join e.path.package? name)]
    ((g.reindex e.path (Path.join e.path.package? name) d).update
      (·.rename name (Path.join e.path.package? name)) d)).place).map ElementPlace.deleted).element h
  refine hrepoint.trans ?_
  rw [element?_update]
  split
  · exact (Option.map_map _ _ _)
  · rfl

theorem isDeleted_misplaced (h : Handle) :
    (g.misplaced d e name).isDeleted h = g.isDeleted h := by
  have hany : ∀ o : Option Element, o.any (·.deleted) = (o.map Element.deleted).getD false := by
    intro o
    cases o <;> rfl
  rw [isDeleted, isDeleted, hany, hany, map_deleted_misplaced]

theorem map_fst_ofKind_misplaced (k : Kind) :
    ((g.misplaced d e name).ofKind k).map Prod.fst = (g.ofKind k).map Prod.fst := by
  have hroster : (g.misplaced d e name).roster = g.roster := (keeps_repoint _ _).roster
  rw [map_fst_ofKind, map_fst_ofKind, hroster]
  refine List.filter_congr fun h _ => ?_
  rw [← Option.isSome_map (f := Element.deleted), map_deleted_misplaced, Option.isSome_map]

end Misplaced

/-- What can be done with the handle of a deleted element. A deletion does nothing and an addition
fails. A renaming fails as well, or has nothing to do, or else puts the deleted element into the
index under its new path and takes the old path out, whichever element is there now. So what is alive
stays the same exactly if the renaming has no effect at all. -/
theorem deleted_handles {r : Registry} (a : Reached (fun g c => c.Allowed g) r g)
    (he : g.element? d = some e) (hd : e.deleted = true) :
    g.delete d = .ok g ∧
    (∀ x, g.addStep x (some d) = (g, .error
      (.invalidPath (e.path.nest x.name) ("`" ++ e.path.text ++ "` is not a package")))) ∧
    ∀ name,
      (Inert g e name → (Change.rename d name).run g = g) ∧
      (¬Inert g e name → ∃ g', g.rename d name = .ok g' ∧ g'.isDeleted d = true ∧
        (∀ p, g'.lookup p = if p = Path.join e.path.package? name then some d
          else if p = e.path then none else g.lookup p) ∧
        ∀ k, (g'.ofKind k).map Prod.fst = (g.ofKind k).map Prod.fst) ∧
      (SameLive g ((Change.rename d name).run g) ↔ Inert g e name) := by
  have w := a.wellFormed
  have hdeleted : g.isDeleted d = true := by
    rw [isDeleted, he, Option.any_some, hd]
  refine ⟨?_, fun x => ?_, fun name => ⟨rename_inert he, fun hi => ?_, ?_⟩⟩
  · rw [delete, he]
    simp only [hd, if_true]
  · rw [addStep, addElement, ownerPath, he]
    simp only [hd, Bool.true_or, if_true]
    rfl
  · exact ⟨_, rename_deleted w he hd hi, (isDeleted_misplaced d).trans hdeleted, lookup_misplaced,
      map_fst_ofKind_misplaced⟩
  · constructor
    · intro hs
      refine Classical.byContradiction fun hi => ?_
      have hlookup := hs.lookup (Path.join e.path.package? name)
      rw [Change.run, rename_deleted w he hd hi, Except.toOption, Option.getD_some,
        lookup_misplaced, if_pos rfl] at hlookup
      exact w.lookup_ne_deleted he hd _ hlookup.symm
    · intro hi
      rw [rename_inert he hi]
      exact .refl g

def replacedGraph : Graph :=
  (Change.create ⟨"A"⟩ (.class {})).run ((Change.delete ⟨12⟩).run
    ((Change.create ⟨"A"⟩ (.class {})).run (new Preset.full)))

theorem reached_replacedGraph : Reached (fun g c => c.Allowed g) Preset.full replacedGraph :=
  ((Reached.new.change rfl).change trivial).change rfl

theorem deleted_handles_replaced :
    replacedGraph.delete ⟨12⟩ = .ok replacedGraph ∧
    (∀ x, (replacedGraph.addStep x (some ⟨12⟩)).1 = replacedGraph) ∧
    (Change.rename ⟨12⟩ "a::b").run replacedGraph = replacedGraph ∧
    ¬SameLive replacedGraph ((Change.rename ⟨12⟩ "B").run replacedGraph) := by
  obtain ⟨e, he, hd, hp⟩ : ∃ e, replacedGraph.element? ⟨12⟩ = some e ∧ e.deleted = true ∧
      e.path = ⟨"A"⟩ := ⟨_, rfl, rfl, rfl⟩
  obtain ⟨hdelete, hadd, hrename⟩ := deleted_handles reached_replacedGraph he hd
  refine ⟨hdelete, fun x => by rw [hadd], (hrename "a::b").1 (.inr (.inl (by decide))), ?_⟩
  rw [(hrename "B").2.2, Inert, hp]
  rintro (h | h | h | ⟨h, hl⟩)
  · cases h
  · exact absurd h (by decide)
  · exact absurd h (by decide)
  · cases hl

/-- The renamed element was deleted, and the one that is alive is not found any more. -/
theorem rename_deleted_takes_path :
    Reached (fun g c => c.Allowed g) Preset.full replacedGraph ∧
    replacedGraph.isDeleted ⟨12⟩ = true ∧ replacedGraph.lookup ⟨"A"⟩ = some ⟨13⟩ ∧
    replacedGraph.lookup ⟨"B"⟩ = none ∧
    ((Change.rename ⟨12⟩ "B").run replacedGraph).isDeleted ⟨12⟩ = true ∧
    ((Change.rename ⟨12⟩ "B").run replacedGraph).isDeleted ⟨13⟩ = false ∧
    ((Change.rename ⟨12⟩ "B").run replacedGraph).lookup ⟨"A"⟩ = none ∧
    ((Change.rename ⟨12⟩ "B").run replacedGraph).lookup ⟨"B"⟩ = some ⟨12⟩ :=
  ⟨reached_replacedGraph, rfl, rfl, rfl, rfl, rfl, rfl, rfl⟩

end ModelGraph.Graph
