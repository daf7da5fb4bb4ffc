import ModelGraph.Proofs.FailedChanges
import ModelGraph.Proofs.FrozenGraphs
import ModelGraph.Proofs.Subtrees

namespace ModelGraph.Graph

variable {g g' : Graph} {p q : Path} {h k : Handle} {e x : Element}

/-- An element is listed once, by the package at the path around its own. -/
structure Linked (g : Graph) (h : Handle) (e : Element) : Prop where
  package_eq : e.package = e.path.package?.bind g.lookup
  listed : ∀ o, e.package = some o →
    ∃ x, g.LiveAt o x ∧ x.kind = .package ∧ x.body.children.count h = 1

theorem WellFormed.linked (w : g.WellFormed) (hl : g.LiveAt h e) : g.Linked h e where
  package_eq := by
    rw [w.package?_path hl]
    cases ho : e.package with
    | none => rfl
    | some o =>
      obtain ⟨x, hx, -⟩ := w.owner h e o hl ho
      rw [Option.map_some, Option.bind_some, hx.pathOf, w.lookup_path hx]
  listed := by
    intro o ho
    obtain ⟨x, hx, hk, -, hcount⟩ := w.owner h e o hl ho
    exact ⟨x, hx, hk, hcount⟩

/-- An element that is alive and no package stands at `q`, which is a path around `p`. -/
def Blocks (g : Graph) (q p : Path) : Prop :=
  q.Encloses p ∧ ∃ h e, g.LiveAt h e ∧ e.path = q ∧ e.kind ≠ .package

theorem not_blocked_of_live (w : g.WellFormed) (hl : g.LiveAt h e) (q : Path) :
    ¬g.Blocks q e.path := by
  rintro ⟨henc, k, x, hx, hp, hk⟩
  have hmem := (Path.mem_ancestors_iff_encloses (w.fault?_path hl)).mpr henc
  obtain ⟨o, y, hy, hyp, hyk⟩ := w.live_ancestor hl hmem
  obtain rfl := w.handle_eq hx hy (hp.trans hyp.symm)
  exact hk (hx.unique hy ▸ hyk)

theorem ensurePackage_blocked (w : g.WellFormed) (hl : g.LiveAt h e) (hk : e.kind ≠ .package)
    (hq : e.path = p ∨ e.path ∈ p.ancestors) : g.ensurePackage p =
      (g, .error (.invalidPath e.path "an element other than a package owns this path")) := by
  -- Above an element that is alive there are packages only.
  have habove : ∀ {k x}, g.LiveAt k x → e.path ∉ x.path.ancestors := by
    intro k x hx hmem
    exact not_blocked_of_live w hx e.path
      ⟨(Path.mem_ancestors_iff_encloses (w.fault?_path hx)).mp hmem, h, e, hl, rfl, hk⟩
  have hbelow : ∀ {p o : Path}, g.lookup p = none → p.package? = some o →
      (e.path = p ∨ e.path ∈ p.ancestors) → e.path = o ∨ e.path ∈ o.ancestors := by
    rintro p o hlook ho (rfl | hmem)
    · rw [w.lookup_path hl] at hlook
      cases hlook
    · rwa [Path.ancestors_eq ho, List.mem_cons] at hmem
  fun_induction ensurePackage g p with
  | case1 p k hlook hpackage =>
    obtain ⟨x, hx, rfl⟩ := (w.lookup_iff p k).mp hlook
    rcases hq with hsame | hmem
    · obtain rfl := w.handle_eq hl hx hsame
      rw [hl.1, Option.any_some, Element.isPackage_iff] at hpackage
      exact absurd hpackage hk
    · exact absurd hmem (habove hx)
  | case2 p k hlook =>
    obtain ⟨x, hx, rfl⟩ := (w.lookup_iff p k).mp hlook
    rcases hq with hsame | hmem
    · rw [hsame]
    · exact absurd hmem (habove hx)
  | case3 p hlook hnone =>
    rcases hq with rfl | hmem
    · rw [w.lookup_path hl] at hlook
      cases hlook
    · rw [Path.ancestors_eq_nil hnone] at hmem
      cases hmem
  | case4 p hlook o ho g' owner hens ih =>
    rw [ih (hbelow hlook ho hq)] at hens
    cases hens
  | case5 p hlook o ho g' fault hens ih =>
    rw [ih (hbelow hlook ho hq)] at hens
    cases hens
    rfl

theorem create_malformed {fault : Path.Fault} (hp : p.fault? = some fault) (b : Body) :
    g.create p b = (g, .error (.invalidPath p fault.message)) := by
  rw [create, hp]

theorem create_blocked (w : g.WellFormed) (hp : p.fault? = none) (hb : g.Blocks q p) (b : Body) :
    g.create p b =
      (g, .error (.invalidPath q "an element other than a package owns this path")) := by
  obtain ⟨henc, h, e, hl, rfl, hk⟩ := hb
  have hmem := (Path.mem_ancestors_iff_encloses hp).mpr henc
  rw [create, hp]
  cases ho : p.package? with
  | none =>
    rw [Path.ancestors_eq_nil ho] at hmem
    cases hmem
  | some o =>
    rw [Path.ancestors_eq ho, List.mem_cons] at hmem
    simp only [ensurePackage_blocked w hl hk hmem]

theorem addStep_taken {owner : Option Handle} (hf : g.frozen = false) (hs : Path.IsSegment x.name)
    (ho : ∀ o, owner = some o → ∃ p, g.LiveAt o p ∧ p.kind = .package)
    (hp : Path.join (owner.map g.pathOf) x.name = p) (hl : g.lookup p = some h) :
    g.addStep x owner = (g, .error (.duplicatePath p)) := by
  have htaken : g.index.contains p = true := by
    rw [Index.contains, ← lookup, hl, Option.isSome_some]
  have hadd : g.addElement x owner = .error (.duplicatePath p) := by
    simp [addElement, ownerPath_ok ho, hf, Path.isSimpleName_of_isSegment hs, hp, htaken]
    rfl
  rw [addStep, hadd]

theorem create_taken (w : g.WellFormed) (hf : g.frozen = false) (hl : g.LiveAt h e) (b : Body) :
    g.create e.path b = (g, .error (.duplicatePath e.path)) := by
  have hs : Path.IsSegment e.path.name := w.name_path hl ▸ w.segment h e hl
  have hlook := w.lookup_path hl
  rw [create, w.fault?_path hl]
  cases hq : e.path.package? with
  | none => exact addStep_taken hf hs (by simp) (Path.join_name_of_package? hq) hlook
  | some q =>
    obtain ⟨o, x, ho, hx, rfl⟩ := w.owner_of_package? hl hq
    obtain ⟨y, hy, hk, -⟩ := w.owner h e o hl ho
    have hens : g.ensurePackage x.path = (g, .ok o) := by
      refine ensurePackage_found (w.lookup_path hx) ?_
      rw [hy.1, Option.any_some, Element.isPackage_iff, hk]
    have hjoin : Path.join ((some o).map g.pathOf) e.path.name = e.path := by
      rw [Option.map_some, hx.pathOf]
      exact Path.join_name_of_package? hq
    simp only [hens]
    refine addStep_taken hf hs ?_ hjoin hlook
    rintro o' ⟨⟩
    exact ⟨y, hy, hk⟩

theorem addStep_eq_push {owner : Option Handle} (ha : (g.addStep x owner).2 = .ok h)
    (hp : Path.join (owner.map g.pathOf) x.name = p) :
    g.lookup p = none ∧
      g.addStep x owner = ((g.push x owner p).1, .ok ⟨g.elements.size⟩) := by
  subst hp
  obtain ⟨rfl, hg, -, hfree⟩ := addStep_eq_ok ha
  exact ⟨hfree, hg⟩

/-- A path is free, and the package at the path around it is there. -/
structure Vacant (g : Graph) (p : Path) : Prop where
  package : ∀ q, p.package? = some q → ∃ o x, g.LiveAt o x ∧ x.path = q ∧ x.kind = .package
  free : g.lookup p = none

theorem create_steps (w : g.WellFormed) {b : Body} (hc : (g.create p b).2 = .ok h) :
    ∃ g₁, Grows (fun q b => q ∈ p.ancestors ∧ b = .package []) g g₁ ∧
      g₁.Vacant p ∧ g.create p b =
        ((g₁.push (.new p.name b) (p.package?.bind g₁.lookup) p).1, .ok ⟨g₁.elements.size⟩) := by
  rw [create] at hc ⊢
  cases hf : p.fault? with
  | some fault =>
    rw [hf] at hc
    cases hc
  | none =>
    rw [hf] at hc
    cases hq : p.package? with
    | none =>
      simp only [hq] at hc ⊢
      obtain ⟨hfree, hpush⟩ := addStep_eq_push hc (Path.join_name_of_package? hq)
      exact ⟨g, .refl g, ⟨by simp [hq], hfree⟩, hpush⟩
    | some q =>
      simp only [hq] at hc ⊢
      obtain ⟨hgrows, howner⟩ := ensurePackage_grows
        (P := fun s b => s ∈ p.ancestors ∧ b = .package []) w q (Path.fault?_package hf hq)
        fun s hs => ⟨Path.mem_ancestors hq hs, rfl⟩
      cases hens : g.ensurePackage q with
      | mk g₁ made =>
        rw [hens] at hc hgrows howner
        cases made with
        | error fault => cases hc
        | ok owner =>
          obtain ⟨x, hx, hp, hk⟩ := howner owner rfl
          have hjoin : Path.join ((some owner).map g₁.pathOf) p.name = p := by
            rw [Option.map_some, hx.pathOf, hp]
            exact Path.join_name_of_package? hq
          obtain ⟨hfree, hpush⟩ := addStep_eq_push hc hjoin
          have hlook : g₁.lookup q = some owner :=
            hp ▸ (hgrows.wellFormed w).lookup_path hx
          refine ⟨g₁, hgrows, ⟨?_, hfree⟩, ?_⟩
          · intro q' hq'
            obtain rfl := Option.some.inj (hq.symm.trans hq')
            exact ⟨owner, x, hx, hp, hk⟩
          · rw [Option.bind_some, hlook]
            exact hpush

/-- What a creation under `p` that succeeds has made of a graph. The new element is at `h`. -/
structure Created (p : Path) (b : Body) (h : Handle) (g g' : Graph) : Prop where
  element : ∃ e, g'.LiveAt h e ∧ e.path = p ∧ e.name = p.name ∧ e.body = b
  taken : ∀ q, (∃ k, g'.lookup q = some k) ↔ (∃ k, g.lookup q = some k) ∨ q = p ∨ q.Encloses p
  kept : ∀ q k, g.lookup q = some k → g'.lookup q = some k
  packages : ∀ q, q.Encloses p → ∃ k e, g'.lookup q = some k ∧ g'.LiveAt k e ∧ e.path = q ∧
    e.kind = .package
  linked : ∀ k e, g'.LiveAt k e → g'.Linked k e

namespace Vacant

variable (v : g.Vacant p)
include v

theorem lookup_push (e : Element) (owner : Option Handle) (hq : g.lookup q = some k) :
    (g.push e owner p).1.lookup q = some k := by
  rw [lookup, index_push, Index.get?_insert, if_neg]
  · exact hq
  · rintro rfl
    rw [v.free] at hq
    cases hq

theorem bind_lookup_push (e : Element) (owner : Option Handle) {path : Option Path}
    (htaken : ∀ q, path = some q → ∃ k, g.lookup q = some k) :
    path.bind (g.push e owner p).1.lookup = path.bind g.lookup := by
  cases path with
  | none => rfl
  | some q =>
    obtain ⟨k, hk⟩ := htaken q rfl
    rw [Option.bind_some, Option.bind_some, hk, v.lookup_push e owner hk]

variable (w : g.WellFormed)
include w

theorem lookup_package (hq : p.package? = some q) :
    ∃ o x, g.lookup q = some o ∧ g.LiveAt o x ∧ x.kind = .package := by
  obtain ⟨o, x, hx, rfl, hk⟩ := v.package q hq
  exact ⟨o, x, w.lookup_path hx, hx, hk⟩

theorem live_owner (o : Handle) (ho : p.package?.bind g.lookup = some o) :
    ∃ x, g.LiveAt o x ∧ x.kind = .package := by
  obtain ⟨q, hq, ho⟩ := Option.bind_eq_some_iff.mp ho
  obtain ⟨k, x, hlook, hx, hk⟩ := v.lookup_package w hq
  rw [hlook, Option.some.injEq] at ho
  exact ⟨x, ho ▸ hx, hk⟩

theorem live_ancestor (hq : q ∈ p.ancestors) :
    ∃ k x, g.LiveAt k x ∧ x.path = q ∧ x.kind = .package := by
  cases ho : p.package? with
  | none =>
    rw [Path.ancestors_eq_nil ho] at hq
    cases hq
  | some o =>
    obtain ⟨k, x, hx, rfl, hk⟩ := v.package o ho
    rw [Path.ancestors_eq ho] at hq
    rcases List.mem_cons.mp hq with rfl | hq
    · exact ⟨k, x, hx, rfl, hk⟩
    · exact w.live_ancestor hx hq

theorem linked_push (hd : e.deleted = false)
    (hl : (g.push e (p.package?.bind g.lookup) p).1.LiveAt k x) :
    (g.push e (p.package?.bind g.lookup) p).1.Linked k x := by
  have howner := v.live_owner w
  have hlisted : ∀ o y, g.LiveAt o y → y.kind = .package →
      (grown (p.package?.bind g.lookup) ⟨g.elements.size⟩ o y).body.children.count k =
        y.body.children.count k +
          if p.package?.bind g.lookup = some o ∧ k = ⟨g.elements.size⟩ then 1 else 0 := by
    intro o y _ hk
    rw [children_grown _ _ _ _ fun _ => hk]
    by_cases ho : p.package?.bind g.lookup = some o
    · by_cases hnew : k = ⟨g.elements.size⟩
      · simp [ho, hnew]
      · simp [ho, hnew, Ne.symm hnew]
    · simp [ho]
  rcases (liveAt_push_iff howner hd).mp hl with ⟨rfl, rfl⟩ | ⟨y, hy, rfl⟩
  · constructor
    · refine (v.bind_lookup_push _ _ fun q hq => ?_).symm
      obtain ⟨o, x, hlook, -⟩ := v.lookup_package w hq
      exact ⟨o, hlook⟩
    · intro o ho
      obtain ⟨x, hx, hk⟩ := howner o ho
      refine ⟨_, (liveAt_push_iff howner hd).mpr (.inr ⟨x, hx, rfl⟩),
        (kind_grown _ _ _ _).trans hk, ?_⟩
      have hfresh : x.body.children.count ⟨g.elements.size⟩ = 0 := by
        refine List.count_eq_zero.mpr fun hm => ?_
        obtain ⟨z, hz, -⟩ := w.owned o x _ hx.1 hm
        exact hz.ne_next rfl
      rw [hlisted o x hx hk, hfresh]
      simp only [Element.attach] at ho
      simp [ho]
  · have hlinked := w.linked hy
    constructor
    · rw [package_grown, path_grown, hlinked.package_eq]
      refine (v.bind_lookup_push _ _ fun q hq => ?_).symm
      obtain ⟨o, x, -, hx, rfl⟩ := w.owner_of_package? hy hq
      exact ⟨o, w.lookup_path hx⟩
    · intro o ho
      rw [package_grown] at ho
      obtain ⟨x, hx, hk, hcount⟩ := hlinked.listed o ho
      refine ⟨_, (liveAt_push_iff howner hd).mpr (.inr ⟨x, hx, rfl⟩),
        (kind_grown _ _ _ _).trans hk, ?_⟩
      rw [hlisted o x hx hk, hcount, if_neg fun hnew => hy.ne_next hnew.2]

end Vacant

theorem created_of_ok (w : g.WellFormed) {b : Body} (hc : (g.create p b).2 = .ok h) :
    Created p b h g (g.create p b).1 := by
  have hp : p.fault? = none := by
    cases hp : p.fault? with
    | none => rfl
    | some fault =>
      rw [create_malformed hp] at hc
      cases hc
  obtain ⟨g₁, hgrows, v, hcreate⟩ := create_steps w hc
  have w₁ := hgrows.wellFormed w
  rw [hcreate] at hc ⊢
  cases hc
  have hlook : ∀ q k, g.lookup q = some k → g₁.lookup q = some k := by
    intro q k hq
    obtain ⟨x, hx, rfl⟩ := (w.lookup_iff q k).mp hq
    obtain ⟨x', hx', hpath, -⟩ := hgrows.kept hx
    exact hpath ▸ w₁.lookup_path hx'
  constructor
  case element =>
    exact ⟨_, (liveAt_push_iff (v.live_owner w₁) rfl).mpr (.inl ⟨rfl, rfl⟩), rfl, rfl, rfl⟩
  case kept => exact fun q k hq => v.lookup_push _ _ (hlook q k hq)
  case packages =>
    intro q henc
    obtain ⟨k, x, hx, rfl, hk⟩ := v.live_ancestor w₁ ((Path.mem_ancestors_iff_encloses hp).mpr henc)
    exact ⟨k, _, v.lookup_push _ _ (w₁.lookup_path hx),
      (liveAt_push_iff (v.live_owner w₁) rfl).mpr (.inr ⟨x, hx, rfl⟩),
      path_grown _ _ _ _, (kind_grown _ _ _ _).trans hk⟩
  case linked => exact fun k x hl => v.linked_push w₁ rfl hl
  case taken =>
    intro q
    constructor
    · rintro ⟨k, hk⟩
      rw [lookup, index_push, Index.get?_insert] at hk
      split at hk
      · next hq => exact .inr (.inl hq)
      · obtain ⟨x, hx, rfl⟩ := (w₁.lookup_iff q k).mp hk
        rcases hgrows.gained hx with ⟨y, hy, hpath, -⟩ | ⟨hmem, -⟩
        · exact .inl ⟨k, hpath ▸ w.lookup_path hy⟩
        · exact .inr (.inr (Path.encloses_of_mem_ancestors hmem))
    · rintro (⟨k, hk⟩ | rfl | henc)
      · exact ⟨k, v.lookup_push _ _ (hlook q k hk)⟩
      · exact ⟨_, by rw [lookup, index_push, Index.get?_insert, if_pos rfl]⟩
      · obtain ⟨k, x, hx, rfl, -⟩ :=
          v.live_ancestor w₁ ((Path.mem_ancestors_iff_encloses hp).mpr henc)
        exact ⟨k, v.lookup_push _ _ (w₁.lookup_path hx)⟩

/-- A creation in a graph that is not frozen succeeds exactly if the path is accepted and free and
nothing but packages is around it; otherwise it says which of these fails and where, and changes
nothing. If it succeeds, the paths that are taken are those from before, the path itself and the
paths around it, at which there are packages now. -/
theorem create_exact {r : Registry} (a : Lived r g) (hf : g.frozen = false) (p : Path) (b : Body) :
    ((∃ h, (g.create p b).2 = .ok h) ↔
      p.fault? = none ∧ g.lookup p = none ∧ ∀ q, ¬g.Blocks q p) ∧
    (∀ fault, p.fault? = some fault →
      g.create p b = (g, .error (.invalidPath p fault.message))) ∧
    (∀ q, p.fault? = none → g.Blocks q p → g.create p b =
      (g, .error (.invalidPath q "an element other than a package owns this path"))) ∧
    (∀ h, g.lookup p = some h → g.create p b = (g, .error (.duplicatePath p))) ∧
    (∀ h, (g.create p b).2 = .ok h → Created p b h g (g.create p b).1) := by
  have w := a.wellFormed
  have htaken : ∀ h, g.lookup p = some h → g.create p b = (g, .error (.duplicatePath p)) := by
    intro h hl
    obtain ⟨e, he, rfl⟩ := (w.lookup_iff p h).mp hl
    exact create_taken w hf he b
  refine ⟨⟨?_, ?_⟩, fun fault hp => create_malformed hp b, fun q hp hb => create_blocked w hp hb b,
    htaken, fun h => created_of_ok w⟩
  · rintro ⟨h, hc⟩
    have hp : p.fault? = none := by
      refine Option.eq_none_iff_forall_ne_some.mpr fun fault hp => ?_
      rw [create_malformed hp] at hc
      cases hc
    refine ⟨hp, lookup_of_create w hc, fun q hb => ?_⟩
    rw [create_blocked w hp hb] at hc
    cases hc
  · rintro ⟨hp, hfree, hblocks⟩
    refine create_ok w hf hp hfree (fun h e hl hmem => ?_) b
    refine Classical.byContradiction fun hk => hblocks e.path ⟨?_, h, e, hl, rfl, hk⟩
    exact Path.encloses_of_mem_ancestors hmem

theorem create_exact_new :
    (∃ h, ((new Preset.full).create ⟨"a::B"⟩ (.class {})).2 = .ok h) ∧
    (new Preset.full).create ⟨"a:::B"⟩ (.class {}) = (new Preset.full, .error
      (.invalidPath ⟨"a:::B"⟩ "segment `:B` contains a stray `:`")) ∧
    (new Preset.full).create ⟨"Date::B"⟩ (.class {}) = (new Preset.full, .error
      (.invalidPath ⟨"Date"⟩ "an element other than a package owns this path")) ∧
    (new Preset.full).create ⟨"Date"⟩ (.class {}) =
      (new Preset.full, .error (.duplicatePath ⟨"Date"⟩)) := by
  have hexact := create_exact (r := Preset.full) .new rfl
  refine ⟨(hexact _ _).1.mpr ⟨by decide, rfl, ?_⟩, (hexact _ _).2.1 (.strayColon ":B") (by decide),
    (hexact _ _).2.2.1 _ (by decide) ⟨⟨"B", rfl⟩, ⟨3⟩, ?_⟩, (hexact _ _).2.2.2.1 ⟨3⟩ rfl⟩
  · rintro q ⟨henc, h, e, hl, rfl, -⟩
    have hmem := (Path.mem_ancestors_iff_encloses (p := ⟨"a::B"⟩) (by decide)).mpr henc
    have hpackage : (⟨"a::B"⟩ : Path).package? = some ⟨"a"⟩ := by decide
    have hroot : (⟨"a"⟩ : Path).package? = none := by decide
    rw [Path.ancestors_eq hpackage, Path.ancestors_eq_nil hroot, List.mem_singleton] at hmem
    have hlook := (wellFormed_new _).lookup_path hl
    rw [hmem] at hlook
    cases hlook
  · obtain ⟨e, hl, hp, hk⟩ : ∃ e, ((new Preset.full).element? ⟨3⟩ = some e ∧ e.deleted = false) ∧
        e.path = ⟨"Date"⟩ ∧ e.kind = .primitiveType := ⟨_, ⟨rfl, rfl⟩, rfl, rfl⟩
    exact ⟨e, hl, hp, by rw [hk]; decide⟩

theorem path_ne_of_all (ha : g.elements.all (fun e => e.deleted || e.path ≠ p) = true)
    (hl : g.LiveAt h e) : e.path ≠ p := by
  have he := Array.all_eq_true_iff_forall_mem.mp ha e (Array.mem_of_getElem? hl.1)
  rwa [hl.2, Bool.false_or, decide_eq_true_eq] at he

/-- A deleted element that was renamed is in the way. Where the list of a package was replaced, what it
owned outlives it, below whatever is made at its path. Where a package came in with a list, what was
deleted moves along with it and is in the way. -/
theorem not_create_exact :
    (∃ g, (Change.rename ⟨12⟩ "B").run ((Change.delete ⟨12⟩).run
        ((Change.create ⟨"A"⟩ (.class {})).run (new Preset.full))) = g ∧ g.frozen = false ∧
      (∀ h e, g.LiveAt h e → e.path ≠ ⟨"B"⟩) ∧ (g.create ⟨"B::c"⟩ (.class {})).2 =
        .error (.invalidPath ⟨"B"⟩ "an element other than a package owns this path")) ∧
    (∃ g, Reached (fun g c => c.Plain g) Preset.full g ∧ g.frozen = false ∧
      g.Blocks ⟨"x"⟩ ⟨"x::y::z"⟩ ∧ ∃ h, (g.create ⟨"x::y::z"⟩ (.class {})).2 = .ok h) ∧
    ∃ g, Reached (fun g c => c.Plain g) Preset.full g ∧ g.frozen = false ∧
      (∀ h e, g.LiveAt h e → e.path ≠ ⟨"y::B"⟩) ∧
      (g.create ⟨"y::B"⟩ (.class {})).2 = .error (.duplicatePath ⟨"y::B"⟩) := by
  refine ⟨⟨_, rfl, rfl, fun h e => path_ne_of_all (by decide +kernel), ?_⟩, ?_, ?_⟩
  · rw [create_of_not_ensured (q := ⟨"B"⟩) (by decide) (by decide)
      (ensurePackage_of_other (o := ⟨12⟩) rfl rfl)]
  · have hnew : Reached (fun g c => c.Plain g) Preset.full (new Preset.full) := .new
    have hnested := hnew.change (c := .create ⟨"x::y"⟩ (.package [])) trivial
    rw [run_create_nested (q := ⟨"x"⟩) (o := ⟨12⟩) (by decide) (by decide) (by decide) rfl rfl]
      at hnested
    have hagain := ((hnested.change (c := .put [] ⟨12⟩) (Change.plain_put rfl)).change
      (c := .delete ⟨12⟩) trivial).change (c := .create ⟨"x"⟩ (.class {})) trivial
    refine ⟨_, hagain, rfl, ⟨⟨"y::z", rfl⟩, ⟨14⟩, _, ⟨rfl, rfl⟩, rfl, by decide⟩, ⟨15⟩, ?_⟩
    rw [create_of_ensured (q := ⟨"x::y"⟩) (o := ⟨13⟩) (by decide) (by decide)
      (ensurePackage_found rfl rfl)]
    rfl
  · have hreached := reached_owningGraph (r := Preset.full) (.class {})
    rw [owningGraph_eq] at hreached
    have hmoved := ((hreached.change (c := .create ⟨"x"⟩ (.package [⟨13⟩])) trivial).change
      (c := .delete ⟨13⟩) trivial).change (c := .rename ⟨14⟩ "y") ⟨⟨_, rfl, rfl⟩, by decide⟩
    refine ⟨_, hmoved, rfl, fun h e => path_ne_of_all (by decide +kernel), ?_⟩
    rw [create_of_ensured (q := ⟨"y"⟩) (o := ⟨14⟩) (by decide) (by decide)
      (ensurePackage_found rfl rfl)]
    rfl

end ModelGraph.Graph
