import ModelGraph.Proofs.Counterparts
import ModelGraph.Proofs.FrozenGraphs
import ModelGraph.Proofs.Rebinding
import ModelGraph.Proofs.ReferencePaths
import ModelGraph.Proofs.Subtrees

namespace ModelGraph.Graph

variable {g g₀ g' : Graph} {root h : Handle} {e x : Element}

/-- On the way of a renaming: elements that have moved have higher revisions, and the others are the
former ones. -/
def Touched (g₀ : Graph) (state : Graph × Moves) : Prop :=
  ∀ h e, g₀.element? h = some e → ∃ e', state.1.element? h = some e' ∧
    if h ∈ state.2.map Prod.fst then e.revision < e'.revision else e' = e

namespace Touched

variable {state : Graph × Moves}

theorem le (t : Touched g₀ state) {e' : Element} (he : g₀.element? h = some e)
    (he' : state.1.element? h = some e') : e.revision ≤ e'.revision := by
  obtain ⟨y, hy, hrevision⟩ := t h e he
  rw [Option.some.inj (he'.symm.trans hy)]
  split at hrevision
  · exact Nat.le_of_lt hrevision
  · exact Nat.le_of_eq (congrArg Element.revision hrevision.symm)

theorem step (t : Touched g₀ state) (c : Handle) (old new : Path) {f : Element → Element}
    (hf : ∀ e, (f e).revision = e.revision + 1) :
    Touched g₀ ((state.1.update f c).reindex old new c, state.2 ++ [(c, new)]) := by
  intro h e he
  obtain ⟨e', he', hrevision⟩ := t h e he
  have helem : ((state.1.update f c).reindex old new c).element? h =
      if h = c then some (f e') else some e' := by
    refine (element?_update f c state.1 h).trans ?_
    rw [he', Option.map_some]
  simp only [helem, List.map_append, List.map_cons, List.map_nil, List.mem_append,
    List.mem_singleton]
  by_cases hc : h = c
  · have hle := t.le he he'
    simp only [hc, or_true, if_true]
    exact ⟨_, rfl, by rw [hf]; omega⟩
  · simp only [hc, or_false, if_false]
    exact ⟨e', rfl, hrevision⟩

theorem moveChild {walk : Handle → Path → Graph × Moves → Graph × Moves}
    (hwalk : ∀ c q state, Touched g₀ state → Touched g₀ (walk c q state)) (path : Path)
    (t : Touched g₀ state) (c : Handle) : Touched g₀ (Renaming.moveChild walk path state c) := by
  rw [Renaming.moveChild]
  split
  · exact t
  · exact hwalk c _ _ (t.step c _ _ fun _ => rfl)

theorem relocateTree (fuel : Nat) (h : Handle) (path : Path) (t : Touched g₀ state) :
    Touched g₀ (relocateTree fuel h path state) := by
  induction fuel generalizing h path state with
  | zero => exact t
  | succ fuel ih =>
    rw [Renaming.relocateTree_succ]
    split
    · exact t
    · exact List.foldlRecOn _ _ t fun state ht c _ => ht.moveChild (fun c q _ => ih c q) path c

end Touched

namespace Renaming

variable (r : Renaming g₀)

theorem touched_outcome : Touched g₀ r.outcome := by
  refine Touched.relocateTree _ _ _ ?_
  have hstart : Touched g₀ (g₀, []) := fun h e he => ⟨e, he, by simp⟩
  exact hstart.step r.root r.old r.new fun _ => rfl

theorem mem_moves_iff : h ∈ r.outcome.2.map Prod.fst ↔ g₀.InSubtree r.root h := by
  have f := r.follows_outcome
  simp only [List.mem_map, Prod.exists, exists_and_right, exists_eq_right]
  constructor
  · rintro ⟨q, hm⟩
    -- The owner of an element is older than the element.
    induction hn : h.slot using Nat.strongRecOn generalizing h q with
    | ind n ih =>
      rcases f.partial_.linked h q hm with ⟨rfl, -⟩ | ⟨x, o, p, hx, ho, hmo, -⟩
      · exact g₀.inSubtree_self _
      · have howner : g₀.IsOwner o h := ⟨x, hx, ho⟩
        exact .tail (ih o.slot (hn ▸ r.wellFormed.isOwner_slot_lt howner) p hmo rfl) howner
  · intro wi
    induction wi with
    | refl => exact ⟨r.new, f.subset List.mem_cons_self⟩
    | @tail o c _ howner ih =>
      obtain ⟨q, hm⟩ := ih
      obtain ⟨p, hp, -⟩ := f.partial_.moved o q hm
      exact f.closed o q p hm List.not_mem_nil hp c ((r.wellFormed.isOwner_iff_mem hp).mp howner)

theorem lookup_moves_eq_none (hout : ¬g₀.InSubtree r.root h) :
    List.lookup h r.outcome.2 = none := by
  cases hl : List.lookup h r.outcome.2 with
  | none => rfl
  | some q => exact absurd (r.mem_moves_iff.mp (List.mem_map_of_mem (mem_of_lookup hl))) hout

theorem exists_lookup_moves (wi : g₀.InSubtree r.root h) :
    ∃ q, List.lookup h r.outcome.2 = some q ∧ (h, q) ∈ r.outcome.2 := by
  obtain ⟨⟨k, q⟩, hm, rfl⟩ := List.mem_map.mp (r.mem_moves_iff.mpr wi)
  exact ⟨q, r.follows_outcome.partial_.lookup_eq hm, hm⟩

theorem isSome_path?_iff {target : Option Handle} : (r.outcome.2.path? target).isSome = true ↔
    ∃ t, target = some t ∧ g₀.InSubtree r.root t := by
  cases target with
  | none => simp [Moves.path?]
  | some t =>
    simp only [Moves.path?, Option.bind_some, Option.some.injEq, exists_eq_left']
    by_cases wi : g₀.InSubtree r.root t
    · obtain ⟨q, hq, -⟩ := r.exists_lookup_moves wi
      simp [hq, wi]
    · simp [r.lookup_moves_eq_none wi, wi]

theorem concern_moves_iff {b : Body} : r.outcome.2.concern b = true ↔
    ∃ l ∈ b.links, ∃ t, l.target = some t ∧ g₀.InSubtree r.root t := by
  simp only [Moves.concern, List.any_eq_true, isSome_path?_iff]

def result : Graph := r.outcome.1.repoint r.outcome.2

theorem wellFormed_result : r.result.WellFormed :=
  (keeps_repoint r.outcome.2 r.outcome.1).place.wellFormed r.wellFormed_outcome

end Renaming

theorem rebind_follow_of_not_concern {moves : Moves} {b : Body} (hc : ¬moves.concern b = true) :
    b.rebind moves.follow = b := by
  refine (Body.rebind_eq_iff.mpr fun l hl => ?_).trans b.rebind_path
  rw [onLink_follow]
  cases hp : moves.path? l.target with
  | none => rfl
  | some path =>
    refine absurd (List.any_eq_true.mpr ⟨l, hl, ?_⟩) hc
    rw [hp]
    rfl

def followed (moves : Moves) (e : Element) : Element :=
  if moves.concern e.body then e.edit (·.rebind moves.follow) else e

theorem body_followed (moves : Moves) (e : Element) :
    (followed moves e).body = e.body.rebind moves.follow := by
  rw [followed]
  split
  · rfl
  · next hc => exact (rebind_follow_of_not_concern hc).symm

theorem place_followed (moves : Moves) (e : Element) : (followed moves e).place = e.place := by
  have hpost : (e.edit (·.rebind moves.follow)).post = e.post :=
    Element.post_eq_of_body rfl rfl rfl rfl (Body.kind_rebind _ _) (Body.children_rebind _ _)
  rw [followed]
  split
  · exact congrArg Prod.fst hpost
  · rfl

theorem revision_followed (moves : Moves) (e : Element) :
    (followed moves e).revision = e.revision + if moves.concern e.body = true then 1 else 0 := by
  rw [followed]
  split <;> rfl

theorem deleted_followed (moves : Moves) (e : Element) : (followed moves e).deleted = e.deleted :=
  congrArg ElementPlace.deleted (place_followed moves e)

/-- A rebinding that gives references to the elements within `root` the paths that these have in
`g'`. Other references stay as they are, and none is bound to another element. -/
structure Redirects (root : Handle) (g g' : Graph) (f : Rebinding) : Prop where
  moved : ∀ family (r : Reference family) t, r.target = some t → g.InSubtree root t →
    f family r = { r with path := g'.pathOf t }
  kept : ∀ family (r : Reference family), (∀ t, r.target = some t → ¬g.InSubtree root t) →
    f family r = r

/-- What has become of a graph when an element has got a name, so that its path is no longer `old`
but `new`. The elements within it have moved along, the references to them have followed, and
nothing else has changed. -/
structure SubtreeMoved (root : Handle) (name : String) (old new : Path) (g g' : Graph) : Prop where
  size : g'.elements.size = g.elements.size
  deleted : ∀ h e, g.element? h = some e → e.deleted = true → g'.element? h = some e
  moved : ∀ h e, g.LiveAt h e → g.InSubtree root h → ∃ e', g'.LiveAt h e' ∧
    (∃ rest, e.path.text = old.text ++ rest ∧ e'.path.text = new.text ++ rest) ∧
    e'.name = (if h = root then name else e.name) ∧
    g'.lookup e'.path = some h ∧ g'.lookup e.path = none
  kept : ∀ h e, g.LiveAt h e → ¬g.InSubtree root h → ∃ e', g'.LiveAt h e' ∧ e'.path = e.path ∧
    e'.name = e.name ∧ g'.lookup e.path = some h
  references : ∃ f, Redirects root g g' f ∧
    ∀ h e e', g.LiveAt h e → g'.LiveAt h e' → e'.body = e.body.rebind f
  revision : ∀ h e e', g.LiveAt h e → g'.LiveAt h e' → e.revision ≤ e'.revision ∧
    (e.revision < e'.revision ↔
      g.InSubtree root h ∨ ∃ l ∈ e.body.links, ∃ t, l.target = some t ∧ g.InSubtree root t)

namespace Renaming

theorem Moves.exists_rest {r : Renaming g₀} {p q : Path} (m : r.Moves p q) :
    ∃ rest, p.text = r.old.text ++ rest ∧ q.text = r.new.text ++ rest := by
  obtain ⟨names, -, rfl, rfl⟩ := m
  refine ⟨String.ofList (names.flatMap fun n => ':' :: ':' :: n.toList), ?_, ?_⟩ <;>
    exact String.toList_inj.mp (by simp [Path.toList_nestAll])

variable (r : Renaming g₀)

theorem element?_result : r.result.element? h =
    (r.outcome.1.element? h).map fun e => if e.deleted then e else followed r.outcome.2 e :=
  r.wellFormed_outcome.element?_updateLive _ h

theorem liveAt_result (hl : g₀.LiveAt h e) : ∃ e', r.result.LiveAt h e' ∧
    e'.path = (List.lookup h r.outcome.2).getD e.path ∧
    e'.name = (if h = r.root then r.name else e.name) ∧
    e'.body = e.body.rebind r.outcome.2.follow ∧
    e.revision ≤ e'.revision ∧
    (e.revision < e'.revision ↔ g₀.InSubtree r.root h ∨ r.outcome.2.concern e.body = true) := by
  obtain ⟨x, hx, hpath, hname, -, hbody⟩ := r.follows_outcome.partial_.liveAt hl
  obtain ⟨y, hy, hrevision⟩ := r.touched_outcome h e hl.1
  obtain rfl := Option.some.inj (hy.symm.trans hx.1)
  have hplace := place_followed r.outcome.2 y
  refine ⟨followed r.outcome.2 y, ⟨?_, (deleted_followed _ _).trans hx.2⟩,
    (congrArg ElementPlace.path hplace).trans hpath,
    (congrArg ElementPlace.name hplace).trans hname,
    (body_followed _ _).trans (congrArg (Body.rebind r.outcome.2.follow) hbody), ?_⟩
  · rw [r.element?_result, hx.1, Option.map_some, hx.2]
    rfl
  · rw [revision_followed, hbody]
    by_cases wi : g₀.InSubtree r.root h
    · rw [if_pos (r.mem_moves_iff.mpr wi)] at hrevision
      exact ⟨by omega, fun _ => .inl wi, fun _ => by omega⟩
    · rw [if_neg (mt r.mem_moves_iff.mp wi)] at hrevision
      subst hrevision
      refine ⟨Nat.le_add_right _ _, ?_⟩
      split
      · next hc => exact ⟨fun _ => .inr hc, fun _ => Nat.lt_succ_self _⟩
      · next hc =>
          exact ⟨fun hlt => absurd hlt (Nat.lt_irrefl _), fun h => absurd h (by simp [wi, hc])⟩

theorem liveAt_of_result {e' : Element} (hl' : r.result.LiveAt h e') : ∃ e, g₀.LiveAt h e := by
  obtain ⟨x, hx, -⟩ := (keeps_repoint r.outcome.2 r.outcome.1).place.symm.liveAt hl'
  obtain ⟨e, hl, -⟩ := r.follows_outcome.partial_.liveAt_old hx
  exact ⟨e, hl⟩

theorem element?_result_of_deleted (he : g₀.element? h = some e) (hd : e.deleted = true) :
    r.result.element? h = some e := by
  obtain ⟨x, hx, hrevision⟩ := r.touched_outcome h e he
  rw [if_neg] at hrevision
  · rw [r.element?_result, hx, Option.map_some, hrevision, if_pos hd]
  · rw [r.mem_moves_iff]
    intro wi
    obtain ⟨y, hy⟩ := wi.live r.live
    rw [Option.some.inj (he.symm.trans hy.1), hy.2] at hd
    cases hd

/-- A path from which an element has moved is free: no element has moved there, because it was
taken, and none was there but the one that has left. -/
theorem lookup_result_of_moved (hl : g₀.LiveAt h e) (wi : g₀.InSubtree r.root h) :
    r.result.lookup e.path = none := by
  cases hlook : r.result.lookup e.path with
  | none => rfl
  | some k =>
    obtain ⟨y', hy', hp⟩ := (r.wellFormed_result.lookup_iff e.path k).mp hlook
    obtain ⟨y, hy⟩ := r.liveAt_of_result hy'
    obtain ⟨z, hz, hpath, -⟩ := r.liveAt_result hy
    rw [← hy'.unique hz, hp] at hpath
    by_cases wk : g₀.InSubtree r.root k
    · obtain ⟨q, hq, hm⟩ := r.exists_lookup_moves wk
      obtain ⟨x, hx, hmoves, -⟩ := r.follows_outcome.partial_.moved k q hm
      rw [hq, Option.getD_some] at hpath
      exact absurd hpath (hmoves.ne_path hl)
    · rw [r.lookup_moves_eq_none wk, Option.getD_none] at hpath
      exact absurd (r.wellFormed.handle_eq hl hy hpath ▸ wi) wk

theorem redirects_follow : Redirects r.root g₀ r.result r.outcome.2.follow where
  moved := by
    intro family ref t ht wi
    obtain ⟨q, hq, -⟩ := r.exists_lookup_moves wi
    obtain ⟨y, hy⟩ := wi.live r.live
    obtain ⟨y', hy', hpath, -⟩ := r.liveAt_result hy
    have hpathOf : r.result.pathOf t = q := by rw [hy'.pathOf, hpath, hq, Option.getD_some]
    have hmove : r.outcome.2.path? ref.target = some q := by
      rw [ht]
      exact hq
    rw [Moves.follow, hmove, hpathOf]
  kept := by
    intro family ref hout
    have hmove : r.outcome.2.path? ref.target = none := by
      rw [← Option.not_isSome_iff_eq_none, r.isSome_path?_iff]
      rintro ⟨t, ht, wi⟩
      exact hout t ht wi
    rw [Moves.follow, hmove]

theorem subtreeMoved_result : SubtreeMoved r.root r.name r.old r.new g₀ r.result where
  size := (keeps_repoint r.outcome.2 r.outcome.1).size_eq.trans r.follows_outcome.partial_.size
  deleted _ _ := r.element?_result_of_deleted
  moved := by
    intro h e hl wi
    obtain ⟨e', hl', hpath, hname, -⟩ := r.liveAt_result hl
    obtain ⟨q, hq, hm⟩ := r.exists_lookup_moves wi
    obtain ⟨x, hx, hmoves, -⟩ := r.follows_outcome.partial_.moved h q hm
    rw [hx.unique hl] at hmoves
    rw [hq, Option.getD_some] at hpath
    exact ⟨e', hl', hpath ▸ hmoves.exists_rest, hname, r.wellFormed_result.lookup_path hl',
      r.lookup_result_of_moved hl wi⟩
  kept := by
    intro h e hl hout
    obtain ⟨e', hl', hpath, hname, -⟩ := r.liveAt_result hl
    have hroot : h ≠ r.root := by
      rintro rfl
      exact hout (g₀.inSubtree_self _)
    rw [r.lookup_moves_eq_none hout, Option.getD_none] at hpath
    rw [if_neg hroot] at hname
    exact ⟨e', hl', hpath, hname, hpath ▸ r.wellFormed_result.lookup_path hl'⟩
  references := by
    refine ⟨r.outcome.2.follow, r.redirects_follow, ?_⟩
    intro h e e' hl hl'
    obtain ⟨x, hx, -, -, hbody, -⟩ := r.liveAt_result hl
    exact hl'.unique hx ▸ hbody
  revision := by
    intro h e e' hl hl'
    obtain ⟨x, hx, -, -, -, hle, hlt⟩ := r.liveAt_result hl
    rw [r.concern_moves_iff] at hlt
    exact hl'.unique hx ▸ ⟨hle, hlt⟩

theorem rename_ok (hf : g₀.frozen = false) (hne : r.new ≠ r.old) :
    g₀.rename r.root r.name = .ok r.result := by
  have hfree : g₀.index.contains (Path.join r.element.path.package? r.name) = false :=
    Index.contains_eq_false_iff.mpr r.free
  have hsimple := Path.isSimpleName_of_isSegment r.segment
  unfold rename
  simp only [r.live.1]
  refine check_eq_ok.mpr ⟨by simp [hf], check_eq_ok.mpr ⟨by simp [hsimple], ?_⟩⟩
  exact (if_neg hne).trans (check_eq_ok.mpr ⟨by simpa using hfree, rfl⟩)

end Renaming

theorem rename_of_frozen (he : g.element? h = some e) (hf : g.frozen = true) (name : String) :
    g.rename h name = .error (.immutableElementMutation e.path) := by
  unfold rename
  simp only [he, hf, if_true]
  rfl

/-- A renaming of an element that is alive, to a name under which its path changes to a free one,
moves the subtree of the element and nothing else, unless the graph is frozen: then it fails. -/
theorem rename_subtree {r : Registry} (a : Lived r g) (hl : g.LiveAt root e) {name : String}
    (hs : Path.IsSegment name) (hne : Path.join e.path.package? name ≠ e.path)
    (hfree : g.lookup (Path.join e.path.package? name) = none) :
    (g.frozen = false → ∃ g', g.rename root name = .ok g' ∧
      SubtreeMoved root name e.path (Path.join e.path.package? name) g g') ∧
    (g.frozen = true → g.rename root name = .error (.immutableElementMutation e.path)) := by
  constructor
  · intro hf
    let n : Renaming g := ⟨root, e, name, a.wellFormed, hl, hs, hfree⟩
    exact ⟨n.result, n.rename_ok hf hne, n.subtreeMoved_result⟩
  · exact fun hf => rename_of_frozen hl.1 hf name

/-- A package with a class in it, and a class beside it that refers to the other one. -/
def linkedGraph : Graph :=
  (Change.create ⟨"D"⟩ (.class { superTypes := [.bound ⟨"a::C"⟩ ⟨13⟩] })).run
    ((Change.add (.new "C" (.class {})) (some ⟨12⟩)).run
      ((Change.add (.new "a" (.package [])) none).run (new Preset.full)))

theorem lived_linkedGraph : Lived Preset.full linkedGraph :=
  ((Lived.new.change (c := .add (.new "a" (.package [])) none) ⟨rfl, rfl, by decide⟩).change
    (c := .add (.new "C" (.class {})) (some ⟨12⟩)) ⟨rfl, rfl, by decide⟩).change rfl

theorem rename_subtree_linked : ∃ g', linkedGraph.rename ⟨12⟩ "b" = .ok g' ∧
    SubtreeMoved ⟨12⟩ "b" ⟨"a"⟩ ⟨"b"⟩ linkedGraph g' ∧ linkedGraph.lookup ⟨"a::C"⟩ = some ⟨13⟩ ∧
    g'.lookup ⟨"a::C"⟩ = none := by
  obtain ⟨a, ha, hp⟩ : ∃ e, (linkedGraph.element? ⟨12⟩ = some e ∧ e.deleted = false) ∧
      e.path = ⟨"a"⟩ := ⟨_, ⟨rfl, rfl⟩, rfl⟩
  obtain ⟨c, hc, hac, hpc⟩ : ∃ e, (linkedGraph.element? ⟨13⟩ = some e ∧ e.deleted = false) ∧
      e.package = some ⟨12⟩ ∧ e.path = ⟨"a::C"⟩ := ⟨_, ⟨rfl, rfl⟩, rfl, rfl⟩
  have hjoin : Path.join a.path.package? "b" = ⟨"b"⟩ := by
    rw [hp]
    rfl
  have hsegment : Path.IsSegment "b" := by decide
  have hrename := (rename_subtree lived_linkedGraph ha hsegment (by rw [hjoin, hp]; decide)
    (by rw [hjoin]; rfl)).1 rfl
  rw [hjoin, hp] at hrename
  obtain ⟨g', hok, s⟩ := hrename
  obtain ⟨c', -, -, -, -, hfree⟩ := s.moved ⟨13⟩ c hc (.tail .refl ⟨c, hc, hac⟩)
  exact ⟨g', hok, s, rfl, hpc ▸ hfree⟩

theorem rename_linked_frozen :
    linkedGraph.freeze.rename ⟨14⟩ "E" = .error (.immutableElementMutation ⟨"D"⟩) := by
  obtain ⟨d, hd, hp⟩ : ∃ e, linkedGraph.element? ⟨14⟩ = some e ∧ e.path = ⟨"D"⟩ := ⟨_, rfl, rfl⟩
  have hfrozen : linkedGraph.freeze.element? ⟨14⟩ = some d.freeze := by
    rw [element?_freeze, hd, Option.map_some]
  rw [rename_of_frozen hfrozen rfl, Element.freeze, hp]

/-- In a frozen graph a renaming fails. A package of which the list was replaced leaves behind what it
owns, and one that came in with a list takes along what another one owns. -/
theorem not_rename_subtree :
    (Lived Preset.full linkedGraph.freeze ∧
      linkedGraph.freeze.rename ⟨14⟩ "E" = .error (.immutableElementMutation ⟨"D"⟩)) ∧
    (∃ g, Reached (fun g c => c.Plain g) Preset.full g ∧ g.frozen = false ∧
      (∃ e, g.LiveAt ⟨13⟩ e ∧ e.package = some ⟨12⟩) ∧ g.lookup ⟨"a::B"⟩ = some ⟨13⟩ ∧
      ∃ g', g.rename ⟨12⟩ "c" = .ok g' ∧ g'.lookup ⟨"a::B"⟩ = some ⟨13⟩) ∧
    ∃ g, Reached (fun g c => c.Plain g) Preset.full g ∧ g.frozen = false ∧
      (∃ e, g.LiveAt ⟨13⟩ e ∧ e.package = some ⟨12⟩) ∧ g.lookup ⟨"a::B"⟩ = some ⟨13⟩ ∧
      ∃ g', g.rename ⟨14⟩ "y" = .ok g' ∧ g'.lookup ⟨"y::B"⟩ = some ⟨13⟩ := by
  have hreached := reached_owningGraph (r := Preset.full) (.class {})
  rw [owningGraph_eq] at hreached
  refine ⟨⟨lived_linkedGraph.change (c := .freeze) trivial, rename_linked_frozen⟩, ?_, ?_⟩
  · exact ⟨_, hreached.change (c := .put [] ⟨12⟩) (Change.plain_put rfl), rfl,
      ⟨_, ⟨rfl, rfl⟩, rfl⟩, rfl, _, rfl, rfl⟩
  · exact ⟨_, hreached.change (c := .create ⟨"x"⟩ (.package [⟨13⟩])) trivial, rfl,
      ⟨_, ⟨rfl, rfl⟩, rfl⟩, rfl, _, rfl, rfl⟩

end ModelGraph.Graph
