import ModelGraph.Proofs.WellFormed

namespace ModelGraph

/-- What an element keeps while others are deleted around it. -/
structure Element.Thinned (e e' : Element) : Prop where
  name : e'.name = e.name
  path : e'.path = e.path
  package : e'.package = e.package
  kind : e'.kind = e.kind
  links : e'.body.links = e.body.links
  children : e'.body.children ⊆ e.body.children
  deleted : e.deleted = true → e'.deleted = true

theorem Element.Thinned.refl (e : Element) : Element.Thinned e e :=
  ⟨rfl, rfl, rfl, rfl, rfl, List.Subset.refl _, id⟩

theorem Element.Thinned.trans {e e' e'' : Element} (t : Element.Thinned e e')
    (t' : Element.Thinned e' e'') : Element.Thinned e e'' where
  name := t'.name.trans t.name
  path := t'.path.trans t.path
  package := t'.package.trans t.package
  kind := t'.kind.trans t.kind
  links := t'.links.trans t.links
  children := List.Subset.trans t'.children t.children
  deleted := fun h => t'.deleted (t.deleted h)

namespace Graph

variable {g g' : Graph}

/-- Deletions of elements from slot `bound` on. -/
structure Thinned (bound : Nat) (g g' : Graph) : Prop where
  size : g'.elements.size = g.elements.size
  registry : g'.registry = g.registry
  element : ∀ h e, g.element? h = some e →
    ∃ e', g'.element? h = some e' ∧ Element.Thinned e e' ∧
      (h.slot < bound → e'.deleted = e.deleted)

namespace Thinned

variable {bound : Nat}

theorem refl (bound : Nat) (g : Graph) : Thinned bound g g :=
  ⟨rfl, rfl, fun _ e he => ⟨e, he, .refl e, fun _ => rfl⟩⟩

theorem trans {g'' : Graph} (t : Thinned bound g g') (t' : Thinned bound g' g'') :
    Thinned bound g g'' where
  size := t'.size.trans t.size
  registry := t'.registry.trans t.registry
  element := by
    intro h e he
    obtain ⟨e', he', ht, hk⟩ := t.element h e he
    obtain ⟨e'', he'', ht', hk'⟩ := t'.element h e' he'
    exact ⟨e'', he'', ht.trans ht', fun hlt => (hk' hlt).trans (hk hlt)⟩

theorem mono {bound' : Nat} (t : Thinned bound g g') (hb : bound' ≤ bound) : Thinned bound' g g' where
  size := t.size
  registry := t.registry
  element := by
    intro h e he
    obtain ⟨e', he', ht, hk⟩ := t.element h e he
    exact ⟨e', he', ht, fun hlt => hk (Nat.lt_of_lt_of_le hlt hb)⟩

theorem exists_element (t : Thinned bound g g') {h : Handle} {e' : Element}
    (he' : g'.element? h = some e') : ∃ e, g.element? h = some e ∧ Element.Thinned e e' := by
  have hlt : h.slot < g.elements.size := t.size ▸ slot_lt_of_element? he'
  have he : g.element? h = some g.elements[h.slot] := Array.getElem?_eq_getElem hlt
  obtain ⟨x, hx, ht, _⟩ := t.element h _ he
  rw [Option.some.inj (he'.symm.trans hx)]
  exact ⟨_, he, ht⟩

end Thinned

def Gone (g : Graph) (h : Handle) : Prop := ∀ e, ¬g.LiveAt h e

theorem Gone.thinned {bound : Nat} {h : Handle} (hg : g.Gone h) (t : Thinned bound g g') :
    g'.Gone h := by
  intro e' hl
  obtain ⟨e, he, ht⟩ := t.exists_element hl.1
  have hd : e.deleted = false := by
    cases hd : e.deleted with
    | false => rfl
    | true => exact absurd (ht.deleted hd) (by rw [hl.2]; exact Bool.false_ne_true)
  exact hg e ⟨he, hd⟩

/-- An element after `child` has left its graph: the owner of `child` no longer lists it. -/
def shrunk (owner : Option Handle) (child h : Handle) (e : Element) : Element :=
  if owner = some h then { e with body := e.body.mapChildren (·.filter (· ≠ child)) } else e

def marked (child h : Handle) (e : Element) : Element :=
  if h = child then { e with deleted := true } else e

theorem element?_retire (g : Graph) (h : Handle) (e : Element) (h' : Handle) :
    (g.retire h e).element? h' =
      (g.element? h').map fun x => shrunk e.package h h' (marked h h' x) := by
  have hmark : ∀ h', (g.update (fun e => { e with deleted := true }) h).element? h' =
      (g.element? h').map (marked h h') := by
    intro h'
    rw [element?_update]
    by_cases hh : h' = h
    · have hf : marked h h' = fun e => { e with deleted := true } := by
        funext x
        exact if_pos hh
      rw [if_pos hh, hf, hh]
    · have hf : marked h h' = id := by
        funext x
        exact if_neg hh
      rw [if_neg hh, hf, Option.map_id_fun, id]
  unfold retire leave
  cases ho : e.package with
  | none =>
    refine (hmark h').trans ?_
    simp [shrunk]
  | some o =>
    rw [element?_update]
    by_cases hh : h' = o
    · subst hh
      rw [if_pos rfl]
      refine (congrArg _ (hmark h')).trans ?_
      simp [shrunk, Function.comp_def]
    · rw [if_neg hh]
      refine (hmark h').trans ?_
      simp [shrunk, Ne.symm hh]

theorem index_retire (g : Graph) (h : Handle) (e : Element) :
    (g.retire h e).index = g.index.erase e.path := by
  unfold retire leave
  cases e.package <;> rfl

theorem lookup_retire (g : Graph) (h : Handle) (e : Element) (p : Path) :
    (g.retire h e).lookup p = if p = e.path then none else g.lookup p := by
  rw [lookup, index_retire, Index.get?_erase]
  rfl

theorem roster_retire (g : Graph) (h : Handle) (e : Element) :
    (g.retire h e).roster = g.roster.filter (· ≠ (e.kind, h)) := by
  unfold retire leave
  cases e.package <;> rfl

theorem retire_congr {e e' : Element} (hp : e'.path = e.path) (hk : e'.kind = e.kind)
    (ho : e'.package = e.package) (g : Graph) (h : Handle) : g.retire h e' = g.retire h e := by
  unfold retire
  rw [hp, hk, ho]

theorem thinned_shrunk (owner : Option Handle) (child h : Handle) (e : Element) :
    Element.Thinned e (shrunk owner child h e) := by
  unfold shrunk
  split
  · exact ⟨rfl, rfl, rfl, Body.kind_mapChildren _ _, Body.links_mapChildren _ _,
      Body.children_mapChildren_subset (fun _ => List.filter_sublist.subset) _, id⟩
  · exact .refl e

theorem thinned_marked (child h : Handle) (e : Element) : Element.Thinned e (marked child h e) := by
  unfold marked
  split
  · exact ⟨rfl, rfl, rfl, rfl, rfl, List.Subset.refl _, fun _ => rfl⟩
  · exact .refl e

@[simp]
theorem deleted_shrunk (owner : Option Handle) (child h : Handle) (e : Element) :
    (shrunk owner child h e).deleted = e.deleted := by
  unfold shrunk
  split <;> rfl

theorem children_shrunk {owner : Option Handle} {child h : Handle} {e : Element}
    (hk : e.kind = .package) :
    (shrunk owner child h e).body.children =
      if owner = some h then e.body.children.filter (· ≠ child) else e.body.children := by
  unfold shrunk
  split
  · exact Body.children_mapChildren _ hk
  · rfl

theorem thinned_retire (g : Graph) (h : Handle) (e : Element) :
    Thinned h.slot g (g.retire h e) where
  size := by
    unfold retire leave
    cases e.package <;> simp [update]
  registry := by
    unfold retire leave
    cases e.package <;> rfl
  element := by
    intro h' x hx
    refine ⟨_, by rw [element?_retire, hx, Option.map_some],
      (thinned_marked _ _ _).trans (thinned_shrunk _ _ _ _), ?_⟩
    intro hlt
    have hne : h' ≠ h := by
      rintro rfl
      exact absurd hlt (Nat.lt_irrefl _)
    rw [deleted_shrunk, marked, if_neg hne]

theorem liveAt_retire {h h' : Handle} {e x : Element} :
    (g.retire h e).LiveAt h' x ↔ h' ≠ h ∧ ∃ y, g.LiveAt h' y ∧ x = shrunk e.package h h' y := by
  rw [LiveAt, element?_retire, Option.map_eq_some_iff]
  by_cases hh : h' = h
  · subst hh
    refine ⟨?_, fun hx => absurd rfl hx.1⟩
    rintro ⟨⟨y, _, rfl⟩, hd⟩
    rw [deleted_shrunk, marked, if_pos rfl] at hd
    cases hd
  · have hm : ∀ y, marked h h' y = y := fun y => if_neg hh
    simp only [hm]
    constructor
    · rintro ⟨⟨y, hy, rfl⟩, hd⟩
      rw [deleted_shrunk] at hd
      exact ⟨hh, y, ⟨hy, hd⟩, rfl⟩
    · rintro ⟨_, y, ⟨hy, hd⟩, rfl⟩
      exact ⟨⟨y, hy, rfl⟩, (deleted_shrunk _ _ _ _).trans hd⟩

theorem gone_retire (g : Graph) (h : Handle) (e : Element) : (g.retire h e).Gone h :=
  fun _ hl => (liveAt_retire.mp hl).1 rfl

theorem liveAt_retire_of_ne {h h' : Handle} {e y : Element} (hy : g.LiveAt h' y) (hne : h' ≠ h) :
    (g.retire h e).LiveAt h' (shrunk e.package h h' y) :=
  liveAt_retire.mpr ⟨hne, y, hy, rfl⟩

theorem WellFormed.lookup_retire_iff (w : g.WellFormed) {h : Handle} {e : Element}
    (hl : g.LiveAt h e) (p : Path) (h' : Handle) : (g.retire h e).lookup p = some h' ↔
      ∃ x, (g.retire h e).LiveAt h' x ∧ x.path = p := by
  rw [lookup_retire]
  by_cases hp : p = e.path
  · subst hp
    rw [if_pos rfl]
    refine ⟨fun hn => absurd hn (by simp), ?_⟩
    rintro ⟨x, hx, hxp⟩
    obtain ⟨hne, y, hy, rfl⟩ := liveAt_retire.mp hx
    rw [(thinned_shrunk _ _ _ _).path] at hxp
    exact absurd (w.handle_eq hy hl hxp) hne
  · rw [if_neg hp, w.lookup_iff]
    constructor
    · rintro ⟨y, hy, rfl⟩
      have hne : h' ≠ h := by
        rintro rfl
        exact hp (congrArg Element.path (hy.unique hl))
      exact ⟨_, liveAt_retire_of_ne hy hne, (thinned_shrunk _ _ _ _).path⟩
    · rintro ⟨x, hx, rfl⟩
      obtain ⟨_, y, hy, rfl⟩ := liveAt_retire.mp hx
      exact ⟨y, hy, (thinned_shrunk _ _ _ _).path.symm⟩

theorem WellFormed.owned_retire (w : g.WellFormed) {h o h' : Handle} {e x : Element}
    (hl : g.LiveAt h e) (hx : (g.retire h e).element? o = some x) (hm : h' ∈ x.body.children) :
    ∃ y, (g.retire h e).LiveAt h' y ∧ y.package = some o := by
  rw [element?_retire, Option.map_eq_some_iff] at hx
  obtain ⟨p, hp, rfl⟩ := hx
  have hmp : h' ∈ p.body.children :=
    ((thinned_marked _ _ _).trans (thinned_shrunk _ _ _ _)).children hm
  obtain ⟨y, hy, hyo⟩ := w.owned o p h' hp hmp
  have hne : h' ≠ h := by
    rintro rfl
    have ho : e.package = some o := by rw [hl.unique hy, hyo]
    have hk : (marked h' o p).kind = .package := by
      obtain ⟨q, hq, hk, _⟩ := w.owner h' e o hl ho
      rw [(thinned_marked _ _ _).kind, Option.some.inj (hp.symm.trans hq.1), hk]
    rw [children_shrunk hk, if_pos ho, List.mem_filter] at hm
    simp at hm
  exact ⟨_, liveAt_retire_of_ne hy hne, (thinned_shrunk _ _ _ _).package.trans hyo⟩

theorem WellFormed.retire (w : g.WellFormed) {h : Handle} {e : Element} (hl : g.LiveAt h e)
    (hc : e.body.children = []) : (g.retire h e).WellFormed := by
  -- Nothing that is alive is owned by the element, because it lists nothing.
  have howner : ∀ {h' y o}, g.LiveAt h' y → y.package = some o → o ≠ h := by
    rintro h' y o hy ho rfl
    obtain ⟨p, hp, _, _, hcount⟩ := w.owner h' y o hy ho
    rw [hp.unique hl, hc] at hcount
    cases hcount
  constructor
  case lookup_iff => exact w.lookup_retire_iff hl
  case owner =>
    intro h' x o hx ho
    obtain ⟨hne, y, hy, rfl⟩ := liveAt_retire.mp hx
    rw [(thinned_shrunk _ _ _ _).package] at ho
    obtain ⟨p, hp, hk, hlt, hcount⟩ := w.owner h' y o hy ho
    refine ⟨_, liveAt_retire_of_ne hp (howner hy ho), (thinned_shrunk _ _ _ _).kind.trans hk, hlt, ?_⟩
    rw [children_shrunk hk]
    split
    · rw [List.count_filter (by simpa using hne)]
      exact hcount
    · exact hcount
  case owned => exact fun _ _ _ hx hm => w.owned_retire hl hx hm
  case path_eq =>
    intro h' x hx
    obtain ⟨_, y, hy, rfl⟩ := liveAt_retire.mp hx
    have ht := thinned_shrunk e.package h h' y
    rw [ht.path, ht.package, ht.name, w.path_eq h' y hy]
    cases hpk : y.package with
    | none => rfl
    | some o =>
      obtain ⟨p, hp, _⟩ := w.owner h' y o hy hpk
      have hpathOf : (g.retire h e).pathOf o = g.pathOf o := by
        rw [(liveAt_retire_of_ne hp (howner hy hpk)).pathOf, hp.pathOf, (thinned_shrunk _ _ _ _).path]
      exact congrArg (fun q => Path.join (some q) y.name) hpathOf.symm
  case segment =>
    intro h' x hx
    obtain ⟨_, y, hy, rfl⟩ := liveAt_retire.mp hx
    rw [(thinned_shrunk _ _ _ _).name]
    exact w.segment h' y hy

theorem Rostered.retire (w : g.Rostered) {h : Handle} {e y : Element} (hy : g.element? h = some y)
    (hk : e.kind = y.kind) : (g.retire h e).Rostered where
  nodup := by
    rw [roster_retire]
    exact w.nodup.sublist (List.filter_sublist.map _)
  mem_iff := by
    intro k h'
    rw [roster_retire, List.mem_filter, w.mem_iff]
    simp only [ne_eq, Prod.mk.injEq, not_and, decide_eq_true_eq]
    constructor
    · rintro ⟨⟨x, hx, rfl⟩, hnot⟩
      have hne : h' ≠ h := by
        rintro rfl
        have hkind : x.kind = y.kind := congrArg Element.kind (Option.some.inj (hx.1.symm.trans hy))
        exact hnot (hkind.trans hk.symm) rfl
      exact ⟨_, liveAt_retire.mpr ⟨hne, x, hx, rfl⟩, (thinned_shrunk _ _ _ _).kind⟩
    · rintro ⟨x, hx, rfl⟩
      obtain ⟨hne, y, hy, rfl⟩ := liveAt_retire.mp hx
      exact ⟨⟨y, hy, (thinned_shrunk _ _ _ _).kind.symm⟩, fun _ => hne⟩

/-- A deletion of an element: it and perhaps elements in later slots are gone. -/
structure Retired (h : Handle) (g g' : Graph) : Prop where
  wellFormed : g'.WellFormed
  rostered : g.Rostered → g'.Rostered
  thinned : Thinned h.slot g g'
  gone : g'.Gone h

/-- The children of a package are deleted one after the other. What is in slots up to that of the
package stays alive. -/
theorem retired_foldl {bound n : Nat} {step : Handle → Graph → Graph} {children : List Handle}
    (hb : ∀ c ∈ children, bound ≤ c.slot)
    (hstep : ∀ g : Graph, g.WellFormed → g.elements.size = n →
      ∀ c ∈ children, Retired c g (step c g))
    (w : g.WellFormed) (hsize : g.elements.size = n) :
    (children.foldl (fun g c => step c g) g).WellFormed ∧
      (g.Rostered → (children.foldl (fun g c => step c g) g).Rostered) ∧
      Thinned bound g (children.foldl (fun g c => step c g) g) ∧
      ∀ c ∈ children, (children.foldl (fun g c => step c g) g).Gone c := by
  induction children generalizing g with
  | nil => exact ⟨w, id, .refl bound g, by simp⟩
  | cons c children ih =>
    have hc := hstep g w hsize c (by simp)
    have hsize' : (step c g).elements.size = n := hc.thinned.size.trans hsize
    obtain ⟨hw, hr, ht, hgone⟩ := ih (fun d hd => hb d (List.mem_cons_of_mem c hd))
      (fun g w hs d hd => hstep g w hs d (List.mem_cons_of_mem c hd)) hc.wellFormed hsize'
    refine ⟨hw, hr ∘ hc.rostered, (hc.thinned.mono (hb c (by simp))).trans ht, ?_⟩
    intro d hd
    rcases List.mem_cons.mp hd with rfl | hd
    · exact hc.gone.thinned ht
    · exact hgone d hd

/-- Everything that an element owns, at any depth, is in a later slot, so the slots after its own
bound the levels below it. -/
theorem retired_retireTree (fuel : Nat) {h : Handle} (w : g.WellFormed)
    (hfuel : g.elements.size < fuel + h.slot) : Retired h g (retireTree fuel h g) := by
  induction fuel generalizing g h with
  | zero =>
    rw [retireTree]
    refine ⟨w, id, .refl _ _, ?_⟩
    intro e hl
    have hlt := slot_lt_of_element? hl.1
    omega
  | succ fuel ih =>
    rw [retireTree]
    cases he : g.element? h with
    | none =>
      refine ⟨w, id, .refl _ _, ?_⟩
      intro e hl
      rw [hl.1] at he
      cases he
    | some e =>
      by_cases hd : e.deleted = true
      · simp only [hd, if_true]
        refine ⟨w, id, .refl _ _, ?_⟩
        intro x hl
        rw [Option.some.inj (he.symm.trans hl.1), hl.2] at hd
        cases hd
      · simp only [hd, Bool.false_eq_true, if_false]
        have hl : g.LiveAt h e := ⟨he, by simpa using hd⟩
        have hlater : ∀ c ∈ e.body.children, h.slot + 1 ≤ c.slot := by
          intro c hc
          obtain ⟨x, hx, ho⟩ := w.owned h e c he hc
          obtain ⟨_, _, _, hlt, _⟩ := w.owner c x h hx ho
          exact hlt
        obtain ⟨hw, hr, ht, hgone⟩ := retired_foldl hlater
          (fun g₁ w₁ hs c hc => ih w₁ (by have := hlater c hc; omega)) w rfl
        obtain ⟨x, hx, htx, hkept⟩ := ht.element h e he
        have hlx : Graph.LiveAt _ h x := ⟨hx, (hkept (Nat.lt_succ_self _)).trans hl.2⟩
        have hempty : x.body.children = [] := by
          rw [List.eq_nil_iff_forall_not_mem]
          intro c hc
          obtain ⟨y, hy, _⟩ := hw.owned h x c hx hc
          exact hgone c (htx.children hc) y hy
        rw [retire_congr htx.path.symm htx.kind.symm htx.package.symm]
        have hthinned := (ht.mono (Nat.le_succ _)).trans (thinned_retire _ h x)
        exact ⟨hw.retire hlx hempty, fun hg => (hr hg).retire hlx.1 rfl, hthinned,
          gone_retire _ h x⟩

theorem delete_eq_ok (w : g.WellFormed) {h : Handle} (hd : g.delete h = .ok g') :
    g' = g ∨ Retired h g g' := by
  unfold delete at hd
  cases he : g.element? h with
  | none =>
    rw [he] at hd
    exact .inl (Except.ok.inj hd).symm
  | some e =>
    simp only [he] at hd
    split at hd
    · exact .inl (Except.ok.inj hd).symm
    · split at hd
      · cases hd
      · cases hd
        refine .inr (retired_retireTree g.fuel w ?_)
        rw [fuel]
        omega

end Graph
end ModelGraph
