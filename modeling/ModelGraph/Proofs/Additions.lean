import ModelGraph.Proofs.Outcomes
import ModelGraph.Proofs.WellFormed

namespace ModelGraph.Graph

variable {g g' : Graph}

/-- An element after `child` has come into its graph: the owner of `child` lists it. -/
def grown (owner : Option Handle) (child h : Handle) (e : Element) : Element :=
  if owner = some h then { e with body := e.body.mapChildren (· ++ [child]) } else e

section Grown

variable (owner : Option Handle) (child h : Handle) (e : Element)

@[simp]
theorem name_grown : (grown owner child h e).name = e.name := by
  unfold grown
  split <;> rfl

@[simp]
theorem path_grown : (grown owner child h e).path = e.path := by
  unfold grown
  split <;> rfl

@[simp]
theorem package_grown : (grown owner child h e).package = e.package := by
  unfold grown
  split <;> rfl

@[simp]
theorem deleted_grown : (grown owner child h e).deleted = e.deleted := by
  unfold grown
  split <;> rfl

@[simp]
theorem kind_grown : (grown owner child h e).kind = e.kind := by
  unfold grown
  split
  · exact Body.kind_mapChildren _ _
  · rfl

@[simp]
theorem links_grown : (grown owner child h e).body.links = e.body.links := by
  unfold grown
  split
  · exact Body.links_mapChildren _ _
  · rfl

theorem children_grown (hk : owner = some h → e.kind = .package) :
    (grown owner child h e).body.children =
      if owner = some h then e.body.children ++ [child] else e.body.children := by
  unfold grown
  by_cases ho : owner = some h
  · rw [if_pos ho, if_pos ho]
    exact Body.children_mapChildren _ (hk ho)
  · rw [if_neg ho, if_neg ho]

end Grown

theorem element?_push_grown {e : Element} {owner : Option Handle} {path : Path}
    (ho : ∀ o, owner = some o → ∃ p, g.LiveAt o p ∧ p.kind = .package) (h : Handle) :
    (g.push e owner path).1.element? h =
      if h = ⟨g.elements.size⟩ then some (e.attach owner path)
      else (g.element? h).map (grown owner ⟨g.elements.size⟩ h) := by
  have hslot : ∀ o, owner = some o → o.slot < g.elements.size := by
    intro o howner
    obtain ⟨p, hp, _⟩ := ho o howner
    exact slot_lt_of_element? hp.1
  rw [element?_push e owner path g h hslot]
  by_cases hh : h = ⟨g.elements.size⟩
  · rw [if_pos hh, if_pos hh]
  · rw [if_neg hh, if_neg hh]
    by_cases ho : owner = some h
    · rw [if_pos ho]
      congr 1
      funext y
      rw [grown, if_pos ho]
    · rw [if_neg ho]
      have hid : grown owner ⟨g.elements.size⟩ h = id := by
        funext y
        rw [grown, if_neg ho, id]
      rw [hid, Option.map_id_fun, id]

theorem LiveAt.ne_next {h : Handle} {y : Element} (hl : g.LiveAt h y) : h ≠ ⟨g.elements.size⟩ := by
  rintro rfl
  exact absurd (slot_lt_of_element? hl.1) (Nat.lt_irrefl _)

/-- What is alive after a push: the new element, whatever it holds, and what was alive before. -/
theorem liveAt_push_iff {e : Element} {owner : Option Handle} {path : Path}
    (ho : ∀ o, owner = some o → ∃ p, g.LiveAt o p ∧ p.kind = .package) (hd : e.deleted = false)
    {h : Handle} {x : Element} :
    (g.push e owner path).1.LiveAt h x ↔
      (h = ⟨g.elements.size⟩ ∧ x = e.attach owner path) ∨
        ∃ y, g.LiveAt h y ∧ x = grown owner ⟨g.elements.size⟩ h y := by
  rw [LiveAt, element?_push_grown ho]
  by_cases hh : h = ⟨g.elements.size⟩
  · rw [if_pos hh, Option.some.injEq]
    constructor
    · rintro ⟨rfl, -⟩
      exact .inl ⟨hh, rfl⟩
    · rintro (⟨-, rfl⟩ | ⟨y, hy, -⟩)
      · exact ⟨rfl, hd⟩
      · exact absurd hh hy.ne_next
  · rw [if_neg hh, Option.map_eq_some_iff]
    constructor
    · rintro ⟨⟨y, hy, rfl⟩, hdead⟩
      exact .inr ⟨y, ⟨hy, (deleted_grown _ _ _ _).symm.trans hdead⟩, rfl⟩
    · rintro (⟨hnew, -⟩ | ⟨y, hy, rfl⟩)
      · exact absurd hnew hh
      · exact ⟨⟨y, hy.1, rfl⟩, (deleted_grown _ _ _ _).trans hy.2⟩

/-- An element that may be added under a path. -/
structure Fits (g : Graph) (e : Element) (owner : Option Handle) (path : Path) : Prop where
  childless : e.body.children = []
  alive : e.deleted = false
  segment : Path.IsSegment e.name
  owner_live : ∀ o, owner = some o → ∃ p, g.LiveAt o p ∧ p.kind = .package
  path_eq : path = Path.join (owner.map g.pathOf) e.name
  free : g.lookup path = none

namespace Fits

variable {e : Element} {owner : Option Handle} {path : Path}

theorem element?_push (f : g.Fits e owner path) (h : Handle) :
    (g.push e owner path).1.element? h =
      if h = ⟨g.elements.size⟩ then some (e.attach owner path)
      else (g.element? h).map (grown owner ⟨g.elements.size⟩ h) :=
  element?_push_grown f.owner_live h

theorem liveAt_new (f : g.Fits e owner path) :
    (g.push e owner path).1.LiveAt ⟨g.elements.size⟩ (e.attach owner path) :=
  (liveAt_push_iff f.owner_live f.alive).mpr (.inl ⟨rfl, rfl⟩)

theorem liveAt_old (f : g.Fits e owner path) {h : Handle} {y : Element} (hl : g.LiveAt h y) :
    (g.push e owner path).1.LiveAt h (grown owner ⟨g.elements.size⟩ h y) :=
  (liveAt_push_iff f.owner_live f.alive).mpr (.inr ⟨y, hl, rfl⟩)

theorem liveAt_push (f : g.Fits e owner path) {h : Handle} {x : Element}
    (hl : (g.push e owner path).1.LiveAt h x) :
    (h = ⟨g.elements.size⟩ ∧ x = e.attach owner path) ∨
      ∃ y, g.LiveAt h y ∧ x = grown owner ⟨g.elements.size⟩ h y :=
  (liveAt_push_iff f.owner_live f.alive).mp hl

theorem lookup_push (_ : g.Fits e owner path) (p : Path) :
    (g.push e owner path).1.lookup p =
      if p = path then some ⟨g.elements.size⟩ else g.lookup p := by
  rw [lookup, index_push, Index.get?_insert]
  rfl

theorem pathOf_push (f : g.Fits e owner path) {h : Handle} {y : Element} (hl : g.LiveAt h y) :
    (g.push e owner path).1.pathOf h = g.pathOf h := by
  rw [(f.liveAt_old hl).pathOf, hl.pathOf, path_grown]

theorem path_ne (f : g.Fits e owner path) (w : g.WellFormed) {h : Handle} {y : Element}
    (hl : g.LiveAt h y) : y.path ≠ path := by
  intro he
  have hlook := w.lookup_path hl
  rw [he, f.free] at hlook
  cases hlook

theorem lookup_push_iff (f : g.Fits e owner path) (w : g.WellFormed) (p : Path) (h : Handle) :
    (g.push e owner path).1.lookup p = some h ↔
      ∃ x, (g.push e owner path).1.LiveAt h x ∧ x.path = p := by
  rw [f.lookup_push]
  by_cases hp : p = path
  · subst hp
    simp only [if_true, Option.some.injEq]
    constructor
    · rintro rfl
      exact ⟨_, f.liveAt_new, rfl⟩
    · rintro ⟨x, hl, hx⟩
      rcases f.liveAt_push hl with hn | ⟨y, hy, rfl⟩
      · exact hn.1.symm
      · rw [path_grown] at hx
        exact absurd hx (f.path_ne w hy)
  · rw [if_neg hp, w.lookup_iff]
    constructor
    · rintro ⟨y, hl, rfl⟩
      exact ⟨_, f.liveAt_old hl, path_grown _ _ _ _⟩
    · rintro ⟨x, hl, hx⟩
      rcases f.liveAt_push hl with hn | ⟨y, hy, rfl⟩
      · rw [hn.2] at hx
        exact absurd hx.symm hp
      · rw [path_grown] at hx
        exact ⟨y, hy, hx⟩

/-- The owner of the new element lists it once, because it did not list the handle before. -/
theorem owner_push (f : g.Fits e owner path) (w : g.WellFormed) {h o : Handle} {x : Element}
    (hl : (g.push e owner path).1.LiveAt h x) (ho : x.package = some o) :
    ∃ p, (g.push e owner path).1.LiveAt o p ∧ p.kind = .package ∧ o.slot < h.slot ∧
      p.body.children.count h = 1 := by
  rcases f.liveAt_push hl with ⟨rfl, rfl⟩ | ⟨y, hy, rfl⟩
  · obtain ⟨p, hp, hk⟩ := f.owner_live o ho
    refine ⟨_, f.liveAt_old hp, (kind_grown _ _ _ _).trans hk, slot_lt_of_element? hp.1, ?_⟩
    have hnot : (⟨g.elements.size⟩ : Handle) ∉ p.body.children := by
      intro hm
      obtain ⟨y, hy, _⟩ := w.owned o p _ hp.1 hm
      exact hy.ne_next rfl
    have how : owner = some o := ho
    rw [children_grown _ _ _ _ fun _ => hk, if_pos how, List.count_append,
      List.count_eq_zero.mpr hnot]
    simp
  · rw [package_grown] at ho
    obtain ⟨p, hp, hk, hlt, hc⟩ := w.owner h y o hy ho
    refine ⟨_, f.liveAt_old hp, (kind_grown _ _ _ _).trans hk, hlt, ?_⟩
    rw [children_grown _ _ _ _ fun _ => hk]
    split
    · rw [List.count_append, hc, List.count_eq_zero.mpr]
      simpa using hy.ne_next
    · exact hc

theorem owned_push (f : g.Fits e owner path) (w : g.WellFormed) {o h : Handle} {x : Element}
    (hx : (g.push e owner path).1.element? o = some x) (hm : h ∈ x.body.children) :
    ∃ y, (g.push e owner path).1.LiveAt h y ∧ y.package = some o := by
  rw [f.element?_push] at hx
  by_cases hn : o = ⟨g.elements.size⟩
  · rw [if_pos hn, Option.some.injEq] at hx
    subst hx
    have hempty : (e.attach owner path).body.children = [] := f.childless
    rw [hempty] at hm
    cases hm
  · rw [if_neg hn, Option.map_eq_some_iff] at hx
    obtain ⟨p, hp, rfl⟩ := hx
    have hk : owner = some o → p.kind = .package := by
      intro ho
      obtain ⟨q, hq, hk⟩ := f.owner_live o ho
      rw [← Option.some.inj (hp.symm.trans hq.1)] at hk
      exact hk
    rw [children_grown _ _ _ _ hk] at hm
    have hold : h ∈ p.body.children →
        ∃ y, (g.push e owner path).1.LiveAt h y ∧ y.package = some o := by
      intro hm
      obtain ⟨y, hy, hyo⟩ := w.owned o p h hp hm
      exact ⟨_, f.liveAt_old hy, (package_grown _ _ _ _).trans hyo⟩
    split at hm
    · next ho =>
      rcases List.mem_append.mp hm with hm | hm
      · exact hold hm
      · rw [List.mem_singleton] at hm
        subst hm
        exact ⟨_, f.liveAt_new, ho⟩
    · exact hold hm

theorem path_eq_push (f : g.Fits e owner path) (w : g.WellFormed) {h : Handle} {x : Element}
    (hl : (g.push e owner path).1.LiveAt h x) :
    x.path = Path.join (x.package.map (g.push e owner path).1.pathOf) x.name := by
  rcases f.liveAt_push hl with ⟨rfl, rfl⟩ | ⟨y, hy, rfl⟩
  · refine f.path_eq.trans ?_
    cases owner with
    | none => rfl
    | some o =>
      obtain ⟨p, hp, _⟩ := f.owner_live o rfl
      exact congrArg (fun q => Path.join (some q) e.name) (f.pathOf_push hp).symm
  · rw [path_grown, package_grown, name_grown, w.path_eq h y hy]
    cases hpk : y.package with
    | none => rfl
    | some o =>
      obtain ⟨p, hp, _⟩ := w.owner h y o hy hpk
      exact congrArg (fun q => Path.join (some q) y.name) (f.pathOf_push hp).symm

theorem segment_push (f : g.Fits e owner path) (w : g.WellFormed) {h : Handle} {x : Element}
    (hl : (g.push e owner path).1.LiveAt h x) : Path.IsSegment x.name := by
  rcases f.liveAt_push hl with ⟨-, rfl⟩ | ⟨y, hy, rfl⟩
  · exact f.segment
  · rw [name_grown]
    exact w.segment h y hy

end Fits

theorem WellFormed.push (w : g.WellFormed) {e : Element} {owner : Option Handle} {path : Path}
    (f : g.Fits e owner path) : (g.push e owner path).1.WellFormed where
  lookup_iff := f.lookup_push_iff w
  owner _ _ _ hl ho := f.owner_push w hl ho
  owned _ _ _ hx hm := f.owned_push w hx hm
  path_eq _ _ hl := f.path_eq_push w hl
  segment _ _ hl := f.segment_push w hl

theorem Rostered.push (w : g.Rostered) {e : Element} {owner : Option Handle} {path : Path}
    (ho : ∀ o, owner = some o → ∃ p, g.LiveAt o p ∧ p.kind = .package) (hd : e.deleted = false) :
    (g.push e owner path).1.Rostered where
  nodup := by
    rw [roster_push, List.map_append, List.nodup_append]
    refine ⟨w.nodup, by simp, ?_⟩
    intro a ha b hb hab
    obtain ⟨⟨k, h⟩, hm, rfl⟩ := List.mem_map.mp ha
    obtain ⟨y, hl, _⟩ := (w.mem_iff k h).mp hm
    simp only [List.map_cons, List.map_nil, List.mem_singleton] at hb
    exact hl.ne_next (hab.trans hb)
  mem_iff := by
    intro k h
    rw [roster_push, List.mem_append, List.mem_singleton, Prod.mk.injEq, w.mem_iff]
    simp only [liveAt_push_iff ho hd]
    constructor
    · rintro (⟨y, hl, rfl⟩ | ⟨rfl, rfl⟩)
      · exact ⟨_, .inr ⟨y, hl, rfl⟩, kind_grown _ _ _ _⟩
      · exact ⟨_, .inl ⟨rfl, rfl⟩, rfl⟩
    · rintro ⟨x, ⟨hh, rfl⟩ | ⟨y, hy, rfl⟩, rfl⟩
      · exact .inr ⟨rfl, hh⟩
      · exact .inl ⟨y, hy, (kind_grown _ _ _ _).symm⟩

/-- Pushes of elements that fit, one after the other, with paths and bodies that have a property. -/
inductive Grows (P : Path → Body → Prop) : Graph → Graph → Prop
  | refl (g : Graph) : Grows P g g
  | push {g g' : Graph} {e : Element} {owner : Option Handle} {path : Path} :
      Grows P g g' → g'.Fits e owner path → P path e.body → Grows P g (g'.push e owner path).1

namespace Grows

variable {P : Path → Body → Prop}

theorem trans {g'' : Graph} (a : Grows P g g') (b : Grows P g' g'') : Grows P g g'' := by
  induction b with
  | refl => exact a
  | push _ f hP ih => exact ih.push f hP

theorem wellFormed (a : Grows P g g') (w : g.WellFormed) : g'.WellFormed := by
  induction a with
  | refl => exact w
  | push _ f _ ih => exact ih.push f

theorem rostered (a : Grows P g g') (w : g.Rostered) : g'.Rostered := by
  induction a with
  | refl => exact w
  | push _ f _ ih => exact ih.push f.owner_live f.alive

theorem registry_eq (a : Grows P g g') : g'.registry = g.registry := by
  induction a with
  | refl => rfl
  | push _ _ _ ih => exact (registry_push _ _ _ _).trans ih

end Grows

theorem ownerPath_eq_ok {name : String} {owner : Option Handle} {package : Option Path}
    (h : g.ownerPath name owner = .ok package) :
    package = owner.map g.pathOf ∧
      ∀ o, owner = some o → ∃ p, g.LiveAt o p ∧ p.kind = .package := by
  cases owner with
  | none =>
    simp only [ownerPath, Except.ok.injEq] at h
    exact ⟨h.symm, by simp⟩
  | some o =>
    unfold ownerPath at h
    cases hp : g.element? o with
    | none => simp [hp] at h
    | some p =>
      simp only [hp] at h
      split at h
      · cases h
      · next hlive =>
        simp only [Bool.or_eq_true, Bool.not_eq_true', not_or, Bool.not_eq_true,
          Bool.not_eq_false] at hlive
        cases h
        refine ⟨by rw [Option.map_some, Graph.pathOf, hp], ?_⟩
        rintro o' ⟨⟩
        exact ⟨p, ⟨hp, hlive.1⟩, by simpa [Element.isPackage] using hlive.2⟩

theorem addElement_eq_ok {e : Element} {owner : Option Handle} {r : Graph × Handle}
    (h : g.addElement e owner = .ok r) :
    r = g.push e owner (Path.join (owner.map g.pathOf) e.name) ∧ g.frozen = false ∧
      (∀ o, owner = some o → ∃ p, g.LiveAt o p ∧ p.kind = .package) ∧
      g.lookup (Path.join (owner.map g.pathOf) e.name) = none := by
  unfold addElement at h
  cases ho : g.ownerPath e.name owner with
  | error fault =>
    rw [ho] at h
    cases h
  | ok package =>
    obtain ⟨rfl, hlive⟩ := ownerPath_eq_ok ho
    rw [ho, ok_bind] at h
    obtain ⟨hf, h⟩ := check_eq_ok.mp h
    obtain ⟨_, h⟩ := check_eq_ok.mp h
    obtain ⟨hc, h⟩ := check_eq_ok.mp h
    exact ⟨(pure_eq_ok.mp h).symm, by simpa using hf, hlive,
      Index.contains_eq_false_iff.mp (by simpa using hc)⟩

theorem ensurePackage_induction {Q : Graph → Prop}
    (hpackage : ∀ g name owner, Q g → Q (g.addStep (.new name (.package [])) owner).1) (hq : Q g)
    (p : Path) : Q (g.ensurePackage p).1 := by
  fun_induction ensurePackage g p with
  | case1 => exact hq
  | case2 => exact hq
  | case3 => exact hpackage _ _ _ hq
  | case4 p _ q _ g' owner hg ih =>
    rw [hg] at ih
    exact hpackage _ _ _ ih
  | case5 p _ q _ g' fault hg ih =>
    rw [hg] at ih
    exact ih

theorem create_induction {Q : Graph → Prop} {b : Body}
    (hpackage : ∀ g name owner, Q g → Q (g.addStep (.new name (.package [])) owner).1)
    (hbody : ∀ g name owner, Q g → Q (g.addStep (.new name b) owner).1) (hq : Q g) (p : Path) :
    Q (g.create p b).1 := by
  rw [create]
  split
  · exact hq
  · split
    · exact hbody _ _ _ hq
    · next q _ =>
      have hens := ensurePackage_induction hpackage hq q
      split
      · next hg =>
        rw [hg] at hens
        exact hbody _ _ _ hens
      · next hg =>
        rw [hg] at hens
        exact hens

theorem grows_addStep {P : Path → Body → Prop} (g : Graph) {e : Element} (owner : Option Handle)
    (hc : e.body.children = []) (hd : e.deleted = false) (hs : Path.IsSegment e.name)
    (hP : P (Path.join (owner.map g.pathOf) e.name) e.body) : Grows P g (g.addStep e owner).1 := by
  unfold addStep
  cases h : g.addElement e owner with
  | error fault => exact .refl g
  | ok r =>
    obtain ⟨rfl, _, hlive, hfree⟩ := addElement_eq_ok h
    exact (Grows.refl g).push ⟨hc, hd, hs, hlive, rfl, hfree⟩ hP

theorem addStep_eq_ok {e : Element} {owner : Option Handle} {h : Handle}
    (ha : (g.addStep e owner).2 = .ok h) :
    h = ⟨g.elements.size⟩ ∧
      g.addStep e owner = ((g.push e owner (Path.join (owner.map g.pathOf) e.name)).1, .ok h) ∧
      (∀ o, owner = some o → ∃ p, g.LiveAt o p ∧ p.kind = .package) ∧
      g.lookup (Path.join (owner.map g.pathOf) e.name) = none := by
  unfold addStep at ha ⊢
  cases hr : g.addElement e owner with
  | error fault =>
    rw [hr] at ha
    cases ha
  | ok r =>
    rw [hr] at ha
    cases ha
    obtain ⟨rfl, -, hlive, hfree⟩ := addElement_eq_ok hr
    exact ⟨snd_push .., rfl, hlive, hfree⟩

theorem liveAt_addStep {e : Element} {owner : Option Handle} {h : Handle}
    (ha : (g.addStep e owner).2 = .ok h) (hc : e.body.children = []) (hd : e.deleted = false)
    (hs : Path.IsSegment e.name) :
    (g.addStep e owner).1.LiveAt h (e.attach owner (Path.join (owner.map g.pathOf) e.name)) := by
  obtain ⟨rfl, hg, hlive, hfree⟩ := addStep_eq_ok ha
  rw [hg]
  exact Fits.liveAt_new ⟨hc, hd, hs, hlive, rfl, hfree⟩

theorem ensurePackage_found {p : Path} {o : Handle} (hl : g.lookup p = some o)
    (hk : (g.element? o).any (·.isPackage) = true) : g.ensurePackage p = (g, .ok o) := by
  rw [ensurePackage, hl]
  simp only [hk, if_true]

theorem ensurePackage_of_other {p : Path} {o : Handle} (hl : g.lookup p = some o)
    (hk : (g.element? o).any (·.isPackage) = false) : g.ensurePackage p =
      (g, .error (.invalidPath p "an element other than a package owns this path")) := by
  rw [ensurePackage, hl]
  simp only [hk, Bool.false_eq_true, if_false]

theorem ensurePackage_root {p : Path} (hl : g.lookup p = none) (hp : p.package? = none) :
    g.ensurePackage p = g.addStep (.new p.name (.package [])) none := by
  unfold ensurePackage
  simp only [hl]
  split
  · rfl
  next q hq => cases hp.symm.trans hq

theorem ensurePackage_below {p q : Path} (hl : g.lookup p = none) (hq : p.package? = some q) :
    g.ensurePackage p =
      match g.ensurePackage q with
      | (g, .ok owner) => g.addStep (.new p.name (.package [])) (some owner)
      | (g, .error fault) => (g, .error fault) := by
  rw [ensurePackage, hl]
  simp only
  split
  next hr => cases hr.symm.trans hq
  next q' hq' =>
    cases hq.symm.trans hq'
    rfl

theorem create_of_not_ensured {p q : Path} {fault : GraphError} (hf : p.fault? = none)
    (hq : p.package? = some q) (hens : g.ensurePackage q = (g', .error fault)) (b : Body) :
    g.create p b = (g', .error fault) := by
  rw [create, hf, hq]
  simp only [hens]

theorem create_of_ensured {p q : Path} {o : Handle} (hf : p.fault? = none)
    (hq : p.package? = some q) (hens : g.ensurePackage q = (g', .ok o)) (b : Body) :
    g.create p b = g'.addStep (.new p.name b) (some o) := by
  rw [create, hf, hq]
  simp only [hens]

/-- The packages made on the way to a package are those around it, and what is found or made in the
end is a package at the path that was asked for. -/
theorem ensurePackage_grows {P : Path → Body → Prop} (w : g.WellFormed) (p : Path)
    (hp : p.fault? = none) (hP : ∀ q, q = p ∨ q ∈ p.ancestors → P q (.package [])) :
    Grows P g (g.ensurePackage p).1 ∧ ∀ h, (g.ensurePackage p).2 = .ok h →
      ∃ e, (g.ensurePackage p).1.LiveAt h e ∧ e.path = p ∧ e.kind = .package := by
  have hname := (Path.fault?_eq_none_iff_join.mp hp).1
  have hparent := (Path.fault?_eq_none_iff_join.mp hp).2
  fun_induction ensurePackage g p with
  | case1 p h hl hk =>
    refine ⟨.refl _, ?_⟩
    rintro h' ⟨⟩
    obtain ⟨e, he, rfl⟩ := (w.lookup_iff p h).mp hl
    rw [he.1] at hk
    exact ⟨e, he, rfl, Element.isPackage_iff.mp hk⟩
  | case2 =>
    refine ⟨.refl _, ?_⟩
    intro h hh
    cases hh
  | case3 p hl hq =>
    have hjoin : Path.join none p.name = p := Path.join_name_of_package? hq
    refine ⟨grows_addStep _ none rfl rfl hname (hjoin.symm ▸ hP p (.inl rfl)), fun h hh => ?_⟩
    exact ⟨_, liveAt_addStep hh rfl rfl hname, hjoin, rfl⟩
  | case4 p hl q hq g' owner hg ih =>
    have hfault := Path.fault?_eq_none_iff_join.mp (hparent q hq)
    obtain ⟨ih, howner⟩ := ih (hparent q hq)
      (fun q' hq' => hP q' (.inr (Path.mem_ancestors hq hq'))) hfault.1 hfault.2
    rw [hg] at ih howner
    obtain ⟨o, ho, hpath, _⟩ := howner owner rfl
    have hjoin : Path.join (some (g'.pathOf owner)) p.name = p :=
      Path.join_name_of_package? (by rw [ho.pathOf, hpath, hq])
    refine ⟨ih.trans (grows_addStep g' (some owner) rfl rfl hname ?_), fun h hh => ?_⟩
    · exact hjoin.symm ▸ hP p (.inl rfl)
    · exact ⟨_, liveAt_addStep hh rfl rfl hname, hjoin, rfl⟩
  | case5 p hl q hq g' fault hg ih =>
    have hfault := Path.fault?_eq_none_iff_join.mp (hparent q hq)
    obtain ⟨ih, _⟩ := ih (hparent q hq)
      (fun q' hq' => hP q' (.inr (Path.mem_ancestors hq hq'))) hfault.1 hfault.2
    rw [hg] at ih
    refine ⟨ih, ?_⟩
    intro h hh
    cases hh

theorem grows_ensurePackage {P : Path → Body → Prop} (w : g.WellFormed) (p : Path)
    (hp : p.fault? = none) (hP : ∀ q, q = p ∨ q ∈ p.ancestors → P q (.package [])) :
    Grows P g (g.ensurePackage p).1 :=
  (ensurePackage_grows w p hp hP).1

theorem grows_create {P : Path → Body → Prop} (w : g.WellFormed) (p : Path) {b : Body}
    (hp : ∀ q ∈ p.ancestors, P q (.package [])) (hb : P p b) (hc : b.children = []) :
    Grows P g (g.create p b).1 := by
  unfold create
  cases hf : p.fault? with
  | some fault => exact .refl g
  | none =>
    have hj := Path.fault?_eq_none_iff_join.mp hf
    cases hq : p.package? with
    | none =>
      have hjoin : Path.join none p.name = p := Path.join_name_of_package? hq
      exact grows_addStep g none hc rfl hj.1 (hjoin.symm ▸ hb)
    | some q =>
      obtain ⟨hens, howner⟩ := ensurePackage_grows w q (hj.2 q hq)
        fun q' hq' => hp q' (Path.mem_ancestors hq hq')
      simp only
      split
      · next g' owner he =>
        rw [he] at hens howner
        obtain ⟨o, ho, hpath, _⟩ := howner owner rfl
        have hjoin : Path.join (some (g'.pathOf owner)) p.name = p :=
          Path.join_name_of_package? (by rw [ho.pathOf, hpath, hq])
        exact hens.trans (grows_addStep g' (some owner) hc rfl hj.1 (hjoin.symm ▸ hb))
      · next g' fault he =>
        rw [he] at hens
        exact hens

theorem not_liveAt_empty (r : Registry) (h : Handle) (e : Element) :
    ¬({ registry := r } : Graph).LiveAt h e :=
  fun hl => absurd (slot_lt_of_element? hl.1) (Nat.not_lt_zero _)

theorem wellFormed_empty (r : Registry) : ({ registry := r } : Graph).WellFormed where
  lookup_iff := by
    intro p h
    refine ⟨fun hl => ?_, fun ⟨e, hl, _⟩ => absurd hl (not_liveAt_empty r h e)⟩
    rw [lookup, Index.get?_empty] at hl
    cases hl
  owner := fun h e _ hl => absurd hl (not_liveAt_empty r h e)
  owned := fun _ _ _ hp => absurd (slot_lt_of_element? hp) (Nat.not_lt_zero _)
  path_eq := fun h e hl => absurd hl (not_liveAt_empty r h e)
  segment := fun h e hl => absurd hl (not_liveAt_empty r h e)

theorem rostered_empty (r : Registry) : ({ registry := r } : Graph).Rostered where
  nodup := List.nodup_nil
  mem_iff := by
    intro k h
    refine ⟨fun hm => ?_, fun ⟨e, hl, _⟩ => absurd hl (not_liveAt_empty r h e)⟩
    cases hm

theorem grows_primitives {P : Path → Body → Prop} {names : List String}
    (hP : ∀ n ∈ names, P ⟨n⟩ .primitiveType) (hs : ∀ n ∈ names, Path.IsSegment n)
    (hn : names.Nodup) (g : Graph)
    (hfree : ∀ n ∈ names, g.lookup ⟨n⟩ = none) :
    Grows P g (names.foldl
      (fun g name => (g.push (Element.new name .primitiveType).freeze none ⟨name⟩).1) g) := by
  induction names generalizing g with
  | nil => exact .refl g
  | cons n names ih =>
    simp only [List.nodup_cons] at hn
    have hfit : g.Fits (Element.new n .primitiveType).freeze none ⟨n⟩ :=
      ⟨rfl, rfl, hs n (by simp), by simp, rfl, hfree n (by simp)⟩
    refine ((Grows.refl g).push hfit (hP n (by simp))).trans
      (ih (fun m hm => hP m (List.mem_cons_of_mem n hm))
        (fun m hm => hs m (List.mem_cons_of_mem n hm)) hn.2 _ ?_)
    intro m hm
    rw [hfit.lookup_push, if_neg]
    · exact hfree m (List.mem_cons_of_mem n hm)
    · intro he
      rw [Path.mk.injEq] at he
      exact hn.1 (he ▸ hm)

theorem grows_new {P : Path → Body → Prop} (hP : ∀ n ∈ primitiveNames, P ⟨n⟩ .primitiveType)
    (r : Registry) : Grows P { registry := r } (new r) :=
  grows_primitives hP (by decide) (by decide) _ fun _ _ => rfl

theorem wellFormed_new (r : Registry) : (new r).WellFormed :=
  (grows_new (P := fun _ _ => True) (fun _ _ => trivial) r).wellFormed (wellFormed_empty r)

theorem rostered_new (r : Registry) : (new r).Rostered :=
  (grows_new (P := fun _ _ => True) (fun _ _ => trivial) r).rostered (rostered_empty r)

end ModelGraph.Graph
