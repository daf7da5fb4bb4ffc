import ModelGraph.Proofs.Disposal
import ModelGraph.Proofs.FrozenGraphs
import ModelGraph.Proofs.Subtrees
import ModelGraph.Proofs.Tombstones

namespace ModelGraph

theorem Index.filter_values_erase {α : Type} {x : Index α} {p : Path} {keep : α → Bool}
    (h : ∀ a, x.get? p = some a → keep a = false) :
    (x.erase p).values.filter keep = x.values.filter keep := by
  simp only [values, erase, List.filter_map, List.filter_filter]
  refine congrArg (List.map Prod.snd) (List.filter_congr ?_)
  rintro ⟨q, a⟩ hm
  by_cases hq : q = p
  · subst hq
    simp [h a (get?_eq_some_iff.mpr hm)]
  · simp [hq]

theorem Body.mapChildren_eq {f f' : List Handle → List Handle} {b : Body}
    (h : f b.children = f' b.children) : b.mapChildren f = b.mapChildren f' := by
  cases b with
  | package children => exact congrArg Body.package h
  | _ => rfl

theorem Body.mapChildren_eq_self {f : List Handle → List Handle} {b : Body}
    (h : f b.children = b.children) : b.mapChildren f = b := by
  cases b with
  | package children => exact congrArg Body.package h
  | _ => rfl

theorem Element.presentDigest_mapChildren (f : List Handle → List Handle) (e : Element) :
    ({ e with body := e.body.mapChildren f } : Element).presentDigest = e.presentDigest :=
  congrArg e.memo?.getD (Body.digest_mapChildren f e.path e.body)

namespace Graph

variable {g g' g'' : Graph} {inside : Handle → Prop} {root h : Handle} {e x : Element}

/-- The elements at the handles that are not inside are the former ones, but for `f`, and in the
same order. -/
structure Spares (inside : Handle → Prop) (f : Handle → Element → Element) (g g' : Graph) :
    Prop where
  element : ∀ h, ¬inside h → g'.element? h = (g.element? h).map (f h)
  values : ∀ keep : Handle → Bool, (∀ h, inside h → keep h = false) →
    g'.index.values.filter keep = g.index.values.filter keep
  roster : ∀ keep : Handle → Bool, (∀ h, inside h → keep h = false) →
    g'.roster.filter (fun post => keep post.2) = g.roster.filter fun post => keep post.2

abbrev SparesAll (inside : Handle → Prop) : Graph → Graph → Prop := Spares inside fun _ => id

theorem SparesAll.refl (inside : Handle → Prop) (g : Graph) : SparesAll inside g g where
  element := by simp
  values _ _ := rfl
  roster _ _ := rfl

theorem SparesAll.trans {f : Handle → Element → Element} (s : SparesAll inside g g')
    (s' : Spares inside f g' g'') : Spares inside f g g'' where
  element := by
    intro h hout
    rw [s'.element h hout, s.element h hout, Option.map_id_fun, id]
  values keep hk := (s'.values keep hk).trans (s.values keep hk)
  roster keep hk := (s'.roster keep hk).trans (s.roster keep hk)

theorem Spares.all {owner : Option Handle} (s : Spares inside (shrunk owner h) g g')
    (ho : ∀ o, owner = some o → inside o) : SparesAll inside g g' where
  element := by
    intro k hout
    rw [s.element k hout]
    refine congrArg (Option.map · (g.element? k)) (funext fun y => ?_)
    exact if_neg fun he => hout (ho k he)
  values := s.values
  roster := s.roster

theorem spares_retire (w : g.WellFormed) (hl : g.LiveAt h e) (hin : inside h) :
    Spares inside (shrunk e.package h) g (g.retire h e) where
  element := by
    intro k hout
    rw [element?_retire]
    refine congrArg (Option.map · (g.element? k)) (funext fun y => ?_)
    rw [marked, if_neg]
    rintro rfl
    exact hout hin
  values := by
    intro keep hk
    rw [index_retire]
    refine Index.filter_values_erase fun h' hl' => ?_
    rw [Option.some.inj (hl'.symm.trans (w.lookup_path hl))]
    exact hk h hin
  roster := by
    intro keep hk
    rw [roster_retire, List.filter_filter]
    refine List.filter_congr fun post _ => ?_
    by_cases hp : post = (e.kind, h)
    · simp [hp, hk h hin]
    · simp [hp]

/-- Handles from that of the root on that take in what the elements at them own and, but for the
root, what owns these. -/
structure IsSubtree (inside : Handle → Prop) (root : Handle) (g : Graph) : Prop where
  le : ∀ h, inside h → root.slot ≤ h.slot
  owned : ∀ o p c, g.element? o = some p → inside o → c ∈ p.body.children → inside c
  owner : ∀ h x o, g.element? h = some x → inside h → h ≠ root → x.package = some o → inside o

theorem IsSubtree.thinned {bound : Nat} (s : IsSubtree inside root g) (t : Thinned bound g g') :
    IsSubtree inside root g' where
  le := s.le
  owned := by
    intro o p' c hp' hin hc
    obtain ⟨p, hp, ht⟩ := t.exists_element hp'
    exact s.owned o p c hp hin (ht.children hc)
  owner := by
    intro h x' o hx' hin hne ho
    obtain ⟨x, hx, ht⟩ := t.exists_element hx'
    exact s.owner h x o hx hin hne (ht.package.symm.trans ho)

theorem WellFormed.isSubtree_inSubtree (w : g.WellFormed) (hl : g.LiveAt root e) :
    IsSubtree (g.InSubtree root) root g where
  le := fun _ wi => w.slot_le_of_inSubtree wi
  owned := by
    intro o p c hp wi hc
    exact Relation.ReflTransGen.tail wi (w.owned o p c hp hc)
  owner := by
    intro h x o hx wi hne ho
    obtain ⟨y, hy⟩ := wi.live hl
    obtain rfl := Option.some.inj (hx.symm.trans hy.1)
    obtain ⟨o', ho', wi'⟩ := wi.owner hy hne
    rw [ho, Option.some.injEq] at ho'
    exact ho' ▸ wi'

theorem retireTree_of_gone (hg : g.Gone h) (fuel : Nat) : retireTree fuel h g = g := by
  cases fuel with
  | zero => rfl
  | succ fuel =>
    rw [retireTree]
    split
    · rfl
    · next e he =>
      have hd : e.deleted = true := by
        cases hd : e.deleted with
        | true => rfl
        | false => exact absurd ⟨he, hd⟩ (hg e)
      rw [if_pos hd]

theorem sparesAll_foldl {n : Nat} {step : Handle → Graph → Graph} {children : List Handle}
    (hstep : ∀ g : Graph, g.WellFormed → g.elements.size = n → IsSubtree inside root g →
      ∀ c ∈ children, Retired c g (step c g) ∧ SparesAll inside g (step c g))
    (w : g.WellFormed) (hsize : g.elements.size = n) (s : IsSubtree inside root g) :
    SparesAll inside g (children.foldl (fun g c => step c g) g) := by
  induction children generalizing g with
  | nil => exact .refl inside g
  | cons c children ih =>
    obtain ⟨hc, hspares⟩ := hstep g w hsize s c List.mem_cons_self
    exact hspares.trans (ih (fun g w hs s d hd => hstep g w hs s d (List.mem_cons_of_mem c hd))
      hc.wellFormed (hc.thinned.size.trans hsize) (s.thinned hc.thinned))

theorem spares_retireTree (fuel : Nat) (w : g.WellFormed) (hfuel : g.elements.size < fuel + h.slot)
    (s : IsSubtree inside root g) (hin : inside h) (hl : g.LiveAt h e) :
    Spares inside (shrunk e.package h) g (retireTree fuel h g) := by
  induction fuel generalizing g h e with
  | zero =>
    have hlt := slot_lt_of_element? hl.1
    omega
  | succ fuel ih =>
    have hlater : ∀ c ∈ e.body.children, h.slot + 1 ≤ c.slot := by
      intro c hc
      exact w.isOwner_slot_lt ((w.isOwner_iff_mem hl).mpr hc)
    have hchild : ∀ g₁ : Graph, g₁.WellFormed → g₁.elements.size = g.elements.size →
        IsSubtree inside root g₁ → ∀ c ∈ e.body.children,
          Retired c g₁ (retireTree fuel c g₁) ∧ SparesAll inside g₁ (retireTree fuel c g₁) := by
      intro g₁ w₁ hs s₁ c hc
      have hlt := hlater c hc
      refine ⟨retired_retireTree fuel w₁ (by omega), ?_⟩
      by_cases hlive : ∃ x, g₁.LiveAt c x
      · obtain ⟨x, hx⟩ := hlive
        have hinc := s.owned h e c hl.1 hin hc
        have hne : c ≠ root := by
          rintro rfl
          have hle := s.le h hin
          omega
        exact (ih w₁ (by omega) s₁ hinc hx).all fun o ho => s₁.owner c x o hx.1 hinc hne ho
      · rw [retireTree_of_gone fun x hx => hlive ⟨x, hx⟩]
        exact .refl inside g₁
    obtain ⟨hw, -, ht, -⟩ := retired_foldl hlater
      (fun g₁ w₁ hs c hc => retired_retireTree fuel w₁ (by have := hlater c hc; omega)) w rfl
    obtain ⟨x, hx, htx, hkept⟩ := ht.element h e hl.1
    have hlx : Graph.LiveAt _ h x := ⟨hx, (hkept (Nat.lt_succ_self _)).trans hl.2⟩
    rw [retireTree, hl.1]
    simp only [hl.2, Bool.false_eq_true, if_false]
    refine (sparesAll_foldl hchild w rfl s).trans ?_
    rw [retire_congr htx.path.symm htx.kind.symm htx.package.symm, ← htx.package]
    exact spares_retire hw hlx hin

theorem Thinned.exists_live {bound : Nat} (t : Thinned bound g g') {x' : Element}
    (hx' : g'.LiveAt h x') : ∃ x, g.LiveAt h x ∧ x.Thinned x' := by
  obtain ⟨x, hx, ht⟩ := t.exists_element hx'.1
  refine ⟨x, ⟨hx, ?_⟩, ht⟩
  cases hd : x.deleted with
  | false => rfl
  | true => exact absurd (ht.deleted hd) (by rw [hx'.2]; exact Bool.false_ne_true)

theorem Thinned.gone_of_inSubtree {bound : Nat} (t : Thinned bound g g') (w' : g'.WellFormed)
    (hg : g'.Gone root) (wi : g.InSubtree root h) : g'.Gone h := by
  induction wi with
  | refl => exact hg
  | @tail o c _ howner ih =>
    obtain ⟨x, hx, ho⟩ := howner
    intro x' hx'
    obtain ⟨y, hy, ht⟩ := t.exists_live hx'
    rw [hy.unique hx] at ht
    obtain ⟨p, hp, -⟩ := w'.owner c x' o hx' (ht.package.trans ho)
    exact ih p hp

theorem WellFormed.map_fst_live (w : g.WellFormed) : g.live.map Prod.fst = g.index.values := by
  rw [live, List.map_filterMap]
  have hsome : ∀ h ∈ g.index.values,
      ((g.element? h).map fun e => (h, e)).map Prod.fst = some h := by
    intro h hm
    obtain ⟨e, hl⟩ := w.mem_values_iff.mp hm
    rw [hl.1, Option.map_some, Option.map_some]
  rw [List.filterMap_congr hsome, List.filterMap_some]

theorem filter_map_fst_ofKind (g : Graph) (k : Kind) (keep : Handle → Bool) :
    ((g.ofKind k).map Prod.fst).filter keep =
      (((g.roster.filter fun post => keep post.2).filter (·.1 == k)).map Prod.snd).filter
        fun h => (g.element? h).isSome := by
  simp only [map_fst_ofKind, List.filter_map, List.filter_filter]
  refine congrArg (List.map Prod.snd) (List.filter_congr fun post _ => ?_)
  simp only [Function.comp_apply]
  ac_rfl

/-- What is left of a graph when an element has been deleted with all that is within it. The
elements that are alive keep their places in every enumeration, and all that they are but for
entries of lists that name deleted elements. -/
structure SubtreeDeleted (root : Handle) (g g' : Graph) : Prop where
  size : g'.elements.size = g.elements.size
  deleted : ∀ h, g'.isDeleted h = true ↔ g.isDeleted h = true ∨ g.InSubtree root h
  freed : ∀ h x, g.LiveAt h x → g.InSubtree root h → g'.lookup x.path = none
  lookup : ∀ p, g'.lookup p = (g.lookup p).filter (!g'.isDeleted ·)
  kept : ∀ h x, g.LiveAt h x → ¬g.InSubtree root h →
    g'.LiveAt h { x with body := x.body.mapChildren (·.filter (!g'.isDeleted ·)) }
  links : ∀ h x x', g.LiveAt h x → g'.LiveAt h x' → x'.body.links = x.body.links
  hash : ∀ h x, g.LiveAt h x → ¬g.InSubtree root h → (g'.hash x.path).2 = (g.hash x.path).2
  live : g'.live.map Prod.fst = (g.live.map Prod.fst).filter (!g'.isDeleted ·)
  ofKind : ∀ k, ((g'.ofKind k).map Prod.fst).filter (!g'.isDeleted ·) =
    ((g.ofKind k).map Prod.fst).filter (!g'.isDeleted ·)
  again : g'.delete root = .ok g'

section Deletion

variable (hl : g.LiveAt root e) (t : Retired root g g')
  (s : Spares (g.InSubtree root) (shrunk e.package root) g g')
include hl t s

theorem isDeleted_of_spares :
    g'.isDeleted h = true ↔ g.isDeleted h = true ∨ g.InSubtree root h := by
  by_cases wi : g.InSubtree root h
  · obtain ⟨x, hx⟩ := wi.live hl
    obtain ⟨x', hx', -⟩ := t.thinned.element h x hx.1
    have hd : x'.deleted = true := by
      cases hd : x'.deleted with
      | true => rfl
      | false => exact absurd ⟨hx', hd⟩ (t.thinned.gone_of_inSubtree t.wellFormed t.gone wi x')
    simp [isDeleted, hx', hd, wi]
  · rw [isDeleted, s.element h wi, Option.any_map]
    simp [isDeleted, wi]

variable (w : g.WellFormed)
include w

theorem isDeleted_child_of_spares {c : Handle} (hx : g.LiveAt h x) (hout : ¬g.InSubtree root h)
    (hc : c ∈ x.body.children) : (!g'.isDeleted c) = decide (c ≠ root) := by
  obtain ⟨y, hy, ho⟩ := w.owned h x c hx.1 hc
  have hd : g'.isDeleted c = true ↔ c = root := by
    rw [isDeleted_of_spares hl t s]
    constructor
    · rintro (hd | wi)
      · rw [isDeleted, hy.1, Option.any_some, hy.2] at hd
        cases hd
      · refine Classical.byContradiction fun hne => ?_
        obtain ⟨o, ho', wi⟩ := wi.owner hy hne
        rw [ho, Option.some.injEq] at ho'
        exact hout (ho' ▸ wi)
    · rintro rfl
      exact .inr (g.inSubtree_self c)
  by_cases hroot : c = root
  · rw [hd.mpr hroot, decide_eq_false (by simpa using hroot), Bool.not_true]
  · simpa [hroot] using mt hd.mp hroot

theorem liveAt_of_spares (hx : g.LiveAt h x) (hout : ¬g.InSubtree root h) :
    g'.LiveAt h { x with body := x.body.mapChildren (·.filter (!g'.isDeleted ·)) } := by
  refine ⟨?_, hx.2⟩
  have hchildren : x.body.mapChildren (·.filter (!g'.isDeleted ·)) =
      x.body.mapChildren (·.filter (· ≠ root)) :=
    Body.mapChildren_eq <|
      List.filter_congr fun c hc => isDeleted_child_of_spares hl t s w hx hout hc
  rw [s.element h hout, hx.1, Option.map_some, hchildren, shrunk]
  split
  · rfl
  · next hne =>
    rw [Body.mapChildren_eq_self]
    refine List.filter_eq_self.mpr fun c hc => ?_
    obtain ⟨y, hy, ho⟩ := w.owned h x c hx.1 hc
    refine decide_eq_true ?_
    rintro rfl
    exact hne (hl.unique hy ▸ ho)

theorem lookup_of_spares (p : Path) : g'.lookup p = (g.lookup p).filter (!g'.isDeleted ·) := by
  apply Option.ext
  intro k
  rw [Option.filter_eq_some_iff, t.wellFormed.lookup_iff, w.lookup_iff]
  constructor
  · rintro ⟨x', hx', rfl⟩
    obtain ⟨x, hx, ht⟩ := t.thinned.exists_live hx'
    exact ⟨⟨x, hx, ht.path.symm⟩, by simp [isDeleted, hx'.1, hx'.2]⟩
  · rintro ⟨⟨x, hx, rfl⟩, hd⟩
    have hout : ¬g.InSubtree root k := by
      intro wi
      rw [(isDeleted_of_spares hl t s).mpr (.inr wi)] at hd
      cases hd
    exact ⟨_, liveAt_of_spares hl t s w hx hout, rfl⟩

theorem subtreeDeleted_of_spares : SubtreeDeleted root g g' where
  size := t.thinned.size
  deleted _ := isDeleted_of_spares hl t s
  lookup := lookup_of_spares hl t s w
  freed := by
    intro h x hx wi
    rw [lookup_of_spares hl t s w, w.lookup_path hx]
    simp [(isDeleted_of_spares hl t s).mpr (.inr wi)]
  kept _ _ := liveAt_of_spares hl t s w
  links := by
    intro h x x' hx hx'
    obtain ⟨y, hy, ht⟩ := t.thinned.exists_live hx'
    exact hx.unique hy ▸ ht.links
  hash := by
    intro h x hx hout
    have hx' := liveAt_of_spares hl t s w hx hout
    have hp : g'.lookup x.path = some h := (t.wellFormed.lookup_iff x.path h).mpr ⟨_, hx', rfl⟩
    rw [hash_of_lookup hp hx'.1, hash_of_lookup (w.lookup_path hx) hx.1,
      Element.presentDigest_mapChildren]
    rfl
  live := by
    have hvalues := s.values (!g'.isDeleted ·) fun h wi => by
      rw [(isDeleted_of_spares hl t s).mpr (.inr wi), Bool.not_true]
    rw [w.map_fst_live, t.wellFormed.map_fst_live, ← hvalues]
    refine (List.filter_eq_self.mpr fun h hm => ?_).symm
    obtain ⟨x, hx⟩ := t.wellFormed.mem_values_iff.mp hm
    simp [isDeleted, hx.1, hx.2]
  ofKind := by
    intro k
    have hroster := s.roster (!g'.isDeleted ·) fun h wi => by
      rw [(isDeleted_of_spares hl t s).mpr (.inr wi), Bool.not_true]
    rw [filter_map_fst_ofKind, filter_map_fst_ofKind, hroster]
    refine List.filter_congr fun h _ => ?_
    rw [element?, element?, Option.isSome_eq_isSome, Array.getElem?_eq_none_iff,
      Array.getElem?_eq_none_iff, t.thinned.size]
  again := by
    have hd := (isDeleted_of_spares hl t s).mpr (.inr (g.inSubtree_self root))
    rw [delete]
    split
    · rfl
    · next x hx =>
      rw [isDeleted, hx, Option.any_some] at hd
      rw [if_pos hd]

end Deletion

/-- A deletion of an element that is alive, in a graph that is not frozen, takes out the subtree of
the element and nothing else. Deleting it once more changes nothing. -/
theorem delete_subtree {r : Registry} (a : Lived r g) (hf : g.frozen = false)
    (hl : g.LiveAt root e) : ∃ g', g.delete root = .ok g' ∧ SubtreeDeleted root g g' := by
  have w := a.wellFormed
  have hfuel : g.elements.size < g.fuel + root.slot := by
    rw [fuel]
    omega
  refine ⟨g.retireTree g.fuel root, ?_, ?_⟩
  · rw [delete, hl.1]
    simp only [hl.2, hf, Bool.false_eq_true, if_false]
  · exact subtreeDeleted_of_spares hl (retired_retireTree g.fuel w hfuel)
      (spares_retireTree g.fuel w hfuel (w.isSubtree_inSubtree hl) (g.inSubtree_self root) hl) w

def nestedGraph : Graph :=
  (Change.create ⟨"D"⟩ (.class {})).run ((Change.add (.new "C" (.class {})) (some ⟨12⟩)).run
    ((Change.add (.new "a" (.package [])) none).run (new Preset.full)))

theorem lived_nestedGraph : Lived Preset.full nestedGraph :=
  ((Lived.new.change (c := .add (.new "a" (.package [])) none) ⟨rfl, rfl, by decide⟩).change
    (c := .add (.new "C" (.class {})) (some ⟨12⟩)) ⟨rfl, rfl, by decide⟩).change rfl

theorem delete_subtree_nested : ∃ g', nestedGraph.delete ⟨12⟩ = .ok g' ∧
    SubtreeDeleted ⟨12⟩ nestedGraph g' ∧ nestedGraph.lookup ⟨"a::C"⟩ = some ⟨13⟩ ∧
    g'.lookup ⟨"a::C"⟩ = none ∧ g'.isDeleted ⟨14⟩ = false := by
  obtain ⟨a, ha⟩ : ∃ e, nestedGraph.element? ⟨12⟩ = some e ∧ e.deleted = false := ⟨_, rfl, rfl⟩
  obtain ⟨c, hc, hac, hp⟩ : ∃ e, (nestedGraph.element? ⟨13⟩ = some e ∧ e.deleted = false) ∧
      e.package = some ⟨12⟩ ∧ e.path = ⟨"a::C"⟩ := ⟨_, ⟨rfl, rfl⟩, rfl, rfl⟩
  obtain ⟨d, hd, hroot⟩ : ∃ e, (nestedGraph.element? ⟨14⟩ = some e ∧ e.deleted = false) ∧
      e.package = none := ⟨_, ⟨rfl, rfl⟩, rfl⟩
  have hwithin : nestedGraph.InSubtree ⟨12⟩ ⟨13⟩ := .tail .refl ⟨c, hc, hac⟩
  have hbeside : ¬nestedGraph.InSubtree ⟨12⟩ ⟨14⟩ := by
    intro wi
    obtain ⟨o, ho, -⟩ := wi.owner hd (by decide)
    rw [hroot] at ho
    cases ho
  obtain ⟨g', hdelete, s⟩ := delete_subtree lived_nestedGraph rfl ha
  refine ⟨g', hdelete, s, rfl, hp ▸ s.freed ⟨13⟩ c hc hwithin, ?_⟩
  rw [isDeleted, (s.kept ⟨14⟩ d hd hbeside).1]
  exact hd.2

/-- Where a deleted element was renamed, two elements come to be at one path, and the deletion of one
hides the other. A package of which the list was replaced is deleted without what it owns, and one that
came in with a list takes along what another one owns. -/
theorem not_delete_subtree :
    (∃ g g', (Change.create ⟨"A"⟩ (.class {})).run ((Change.rename ⟨12⟩ "B").run replacedGraph) = g ∧
      g.frozen = false ∧ (∃ e, g.LiveAt ⟨13⟩ e) ∧ g.lookup ⟨"A"⟩ = some ⟨14⟩ ∧
      g.delete ⟨13⟩ = .ok g' ∧ g'.isDeleted ⟨14⟩ = false ∧ g'.lookup ⟨"A"⟩ = none) ∧
    (∃ g, Reached (fun g c => c.Plain g) Preset.full g ∧ g.frozen = false ∧
      (∃ e, g.LiveAt ⟨12⟩ e) ∧ (∃ e, g.LiveAt ⟨13⟩ e ∧ e.package = some ⟨12⟩) ∧
      ∃ g', g.delete ⟨12⟩ = .ok g' ∧ g'.isDeleted ⟨13⟩ = false) ∧
    ∃ g, Reached (fun g c => c.Plain g) Preset.full g ∧ g.frozen = false ∧
      (∃ e, g.LiveAt ⟨14⟩ e) ∧ (∃ e, g.LiveAt ⟨13⟩ e ∧ e.package = some ⟨12⟩) ∧
      ∃ g', g.delete ⟨14⟩ = .ok g' ∧ g'.isDeleted ⟨12⟩ = false ∧ g'.isDeleted ⟨13⟩ = true := by
  have hreached := reached_owningGraph (r := Preset.full) (.class {})
  rw [owningGraph_eq] at hreached
  refine ⟨⟨_, _, rfl, rfl, ⟨_, rfl, rfl⟩, rfl, rfl, rfl, rfl⟩, ?_, ?_⟩
  · exact ⟨_, hreached.change (c := .put [] ⟨12⟩) (Change.plain_put rfl), rfl, ⟨_, rfl, rfl⟩,
      ⟨_, ⟨rfl, rfl⟩, rfl⟩, _, rfl, rfl⟩
  · exact ⟨_, hreached.change (c := .create ⟨"x"⟩ (.package [⟨13⟩])) trivial, rfl, ⟨_, rfl, rfl⟩,
      ⟨_, ⟨rfl, rfl⟩, rfl⟩, _, rfl, rfl, rfl⟩

end Graph
end ModelGraph
