import ModelGraph.Proofs.Outcomes
import ModelGraph.Proofs.WellFormed

namespace ModelGraph.Graph

variable {g g₀ : Graph}

theorem WellFormed.taken_of_nestAll (w : g.WellFormed) {p : Path} {names : List String}
    (hn : ∀ n ∈ names, Path.IsSegment n) {h : Handle} (hl : g.lookup (p.nestAll names) = some h) :
    ∃ h', g.lookup p = some h' := by
  induction names generalizing p with
  | nil => exact ⟨h, hl⟩
  | cons n names ih =>
    obtain ⟨h', hl'⟩ := ih (fun m hm => hn m (List.mem_cons_of_mem n hm)) (p := p.nest n) hl
    obtain ⟨e, he, hp⟩ := (w.lookup_iff _ _).mp hl'
    have hpack : e.path.package? = some p := by
      rw [hp]
      exact Path.package?_nest (hn n (by simp)) p
    obtain ⟨o, q, _, hq, rfl⟩ := w.owner_of_package? he hpack
    exact ⟨o, w.lookup_path hq⟩

theorem element?_reindex (f : Element → Element) (old new : Path) (c : Handle) (g : Graph)
    (h : Handle) : ((g.update f c).reindex old new c).element? h =
      if h = c then (g.element? c).map f else g.element? h := by
  refine (element?_update f c g h).trans ?_
  by_cases hh : h = c
  · rw [if_pos hh, if_pos hh, hh]
  · rw [if_neg hh, if_neg hh]

/-- An index that has what is alive has it still when an element moves to a path at which nothing
else is alive. -/
theorem lookup_reindex_iff {c : Handle} {e : Element} {f : Element → Element} {new : Path}
    (hi : ∀ p h, g.lookup p = some h ↔ ∃ x, g.LiveAt h x ∧ x.path = p) (hl : g.LiveAt c e)
    (hpath : (f e).path = new) (halive : (f e).deleted = false)
    (hnew : ∀ h x, h ≠ c → g.LiveAt h x → x.path ≠ new) (p : Path) (h : Handle) :
    ((g.update f c).reindex e.path new c).lookup p = some h ↔
      ∃ x, ((g.update f c).reindex e.path new c).LiveAt h x ∧ x.path = p := by
  have hlook : ((g.update f c).reindex e.path new c).lookup p =
      if p = new then some c else if p = e.path then none else g.lookup p := by
    rw [lookup, reindex, Index.get?_insert, Index.get?_erase]
    rfl
  simp only [hlook, LiveAt, element?_reindex, hl.1, Option.map_some]
  by_cases hh : h = c
  · subst hh
    simp only [if_true, Option.some.injEq]
    constructor
    · intro hp
      refine ⟨_, ⟨rfl, halive⟩, ?_⟩
      by_cases hpn : p = new
      · exact hpath.trans hpn.symm
      · rw [if_neg hpn] at hp
        split at hp
        · cases hp
        · next hpe =>
          obtain ⟨x, hx, hxp⟩ := (hi p h).mp hp
          rw [hx.unique hl] at hxp
          exact absurd hxp.symm hpe
    · rintro ⟨x, ⟨rfl, _⟩, rfl⟩
      rw [if_pos hpath]
  · simp only [if_neg hh]
    constructor
    · intro hp
      split at hp
      · exact absurd (Option.some.inj hp).symm hh
      · split at hp
        · cases hp
        · exact (hi p h).mp hp
    · rintro ⟨x, hx, rfl⟩
      rw [if_neg (hnew h x hh hx), if_neg]
      · exact (hi x.path h).mpr ⟨x, hx, rfl⟩
      · intro hxe
        have ha := (hi x.path h).mpr ⟨x, hx, rfl⟩
        rw [hxe, (hi e.path c).mpr ⟨e, hl, rfl⟩] at ha
        exact hh (Option.some.inj ha).symm

/-- A new name for an element that is alive, under which its path is free. -/
structure Renaming (g₀ : Graph) where
  root : Handle
  element : Element
  name : String
  wellFormed : g₀.WellFormed
  live : g₀.LiveAt root element
  segment : Path.IsSegment name
  free : g₀.lookup (Path.join element.path.package? name) = none

namespace Renaming

variable (r : Renaming g₀)

def old : Path := r.element.path

def new : Path := Path.join r.old.package? r.name

def Moves (p q : Path) : Prop :=
  ∃ names, (∀ n ∈ names, Path.IsSegment n) ∧ p = r.old.nestAll names ∧ q = r.new.nestAll names

variable {r}

theorem Moves.source_unique {p p' q : Path} (hm : r.Moves p q) (hm' : r.Moves p' q) : p = p' := by
  obtain ⟨names, _, hp, hq⟩ := hm
  obtain ⟨names', _, hp', hq'⟩ := hm'
  rw [hp, hp']
  exact Path.nestAll_congr (hq.symm.trans hq') r.old

theorem Moves.target_unique {p q q' : Path} (hm : r.Moves p q) (hm' : r.Moves p q') : q = q' := by
  obtain ⟨names, _, hp, hq⟩ := hm
  obtain ⟨names', _, hp', hq'⟩ := hm'
  rw [hq, hq']
  exact Path.nestAll_congr (hp.symm.trans hp') r.new

theorem Moves.nest {p q : Path} {n : String} (hm : r.Moves p q) (hn : Path.IsSegment n) :
    r.Moves (p.nest n) (q.nest n) := by
  obtain ⟨names, hs, hp, hq⟩ := hm
  refine ⟨names ++ [n], ?_, ?_, ?_⟩
  · intro m hm
    rcases List.mem_append.mp hm with hm | hm
    · exact hs m hm
    · rw [List.mem_singleton.mp hm]
      exact hn
  · rw [Path.nestAll_concat, ← hp]
  · rw [Path.nestAll_concat, ← hq]

theorem Moves.ne_path {p q : Path} (hm : r.Moves p q) {h : Handle} {e : Element}
    (hl : g₀.LiveAt h e) : e.path ≠ q := by
  obtain ⟨names, hn, _, hq⟩ := hm
  intro hp
  have htaken := r.wellFormed.lookup_path hl
  rw [hp, hq] at htaken
  obtain ⟨h', hl'⟩ := r.wellFormed.taken_of_nestAll hn htaken
  have hfree := r.free
  rw [← old, ← new, hl'] at hfree
  cases hfree

variable (r)

/-- A graph on the way: the elements in `moves` are at their new paths, the others at their old
ones, and the index knows it. -/
structure Partial (g : Graph) (moves : Graph.Moves) : Prop where
  size : g.elements.size = g₀.elements.size
  roster : g.roster = g₀.roster
  registry : g.registry = g₀.registry
  element : ∀ h e, g₀.element? h = some e → ∃ e', g.element? h = some e' ∧
    e'.path = (List.lookup h moves).getD e.path ∧
    e'.name = (if h = r.root then r.name else e.name) ∧
    e'.package = e.package ∧ e'.deleted = e.deleted ∧ e'.body = e.body
  lookup_iff : ∀ p h, g.lookup p = some h ↔ ∃ e, g.LiveAt h e ∧ e.path = p
  moved : ∀ h q, (h, q) ∈ moves → ∃ e, g₀.LiveAt h e ∧ r.Moves e.path q ∧ r.root.slot ≤ h.slot
  linked : ∀ h q, (h, q) ∈ moves → (h = r.root ∧ q = r.new) ∨
    ∃ e o p, g₀.LiveAt h e ∧ e.package = some o ∧ (o, p) ∈ moves ∧ q = p.nest e.name

variable {r}

theorem mem_of_lookup {h : Handle} {q : Path} {moves : Graph.Moves}
    (hl : List.lookup h moves = some q) : (h, q) ∈ moves := by
  induction moves with
  | nil => cases hl
  | cons m moves ih =>
    obtain ⟨h', q'⟩ := m
    by_cases hh : h = h'
    · subst hh
      rw [List.lookup_cons_self, Option.some.injEq] at hl
      rw [hl]
      exact List.mem_cons_self
    · rw [List.lookup_cons, beq_eq_false_iff_ne.mpr hh] at hl
      exact List.mem_cons_of_mem _ (ih hl)

theorem not_mem_of_lookup {h : Handle} {moves : Graph.Moves} (hl : List.lookup h moves = none)
    (q : Path) : (h, q) ∉ moves := by
  intro hm
  rw [List.lookup_eq_none_iff] at hl
  simpa using hl _ hm

theorem lookup_concat_ne {h c : Handle} (hh : h ≠ c) (moves : Graph.Moves) (q : Path) :
    List.lookup h (moves ++ [(c, q)]) = List.lookup h moves := by
  rw [List.lookup_append]
  simp [List.lookup_cons, beq_eq_false_iff_ne.mpr hh]

namespace Partial

variable {moves : Graph.Moves}

theorem lookup_eq (s : r.Partial g moves) {h : Handle} {q : Path} (hm : (h, q) ∈ moves) :
    List.lookup h moves = some q := by
  cases hl : List.lookup h moves with
  | none => exact absurd hm (not_mem_of_lookup hl q)
  | some q' =>
    obtain ⟨e, he, ht, _⟩ := s.moved h q hm
    obtain ⟨e', he', ht', _⟩ := s.moved h q' (mem_of_lookup hl)
    rw [he'.unique he] at ht'
    rw [ht.target_unique ht']

theorem liveAt (s : r.Partial g moves) {h : Handle} {e : Element} (hl : g₀.LiveAt h e) :
    ∃ e', g.LiveAt h e' ∧ e'.path = (List.lookup h moves).getD e.path ∧
      e'.name = (if h = r.root then r.name else e.name) ∧
      e'.package = e.package ∧ e'.body = e.body := by
  obtain ⟨e', he', hp, hn, ho, hd, hb⟩ := s.element h e hl.1
  exact ⟨e', ⟨he', hd.trans hl.2⟩, hp, hn, ho, hb⟩

theorem element?_old (s : r.Partial g moves) {h : Handle} {e' : Element}
    (he' : g.element? h = some e') : ∃ e, g₀.element? h = some e ∧
      e'.path = (List.lookup h moves).getD e.path ∧
      e'.name = (if h = r.root then r.name else e.name) ∧
      e'.package = e.package ∧ e'.deleted = e.deleted ∧ e'.body = e.body := by
  have hlt : h.slot < g₀.elements.size := s.size ▸ slot_lt_of_element? he'
  have he : g₀.element? h = some g₀.elements[h.slot] := Array.getElem?_eq_getElem hlt
  obtain ⟨x, hx, hrest⟩ := s.element h _ he
  rw [Option.some.inj (he'.symm.trans hx)]
  exact ⟨_, he, hrest⟩

theorem liveAt_old (s : r.Partial g moves) {h : Handle} {e' : Element} (hl : g.LiveAt h e') :
    ∃ e, g₀.LiveAt h e ∧ e'.path = (List.lookup h moves).getD e.path ∧
      e'.name = (if h = r.root then r.name else e.name) ∧
      e'.package = e.package ∧ e'.body = e.body := by
  obtain ⟨e, he, hp, hn, ho, hd, hb⟩ := s.element?_old hl.1
  exact ⟨e, ⟨he, hd.symm.trans hl.2⟩, hp, hn, ho, hb⟩

theorem handle_of_target (s : r.Partial g moves) {h c : Handle} {e ec : Element} {q : Path}
    (hl : g₀.LiveAt h e) (hlc : g₀.LiveAt c ec) (hm : r.Moves ec.path q)
    (hp : (List.lookup h moves).getD e.path = q) : h = c := by
  cases hlook : List.lookup h moves with
  | none =>
    rw [hlook, Option.getD_none] at hp
    exact absurd hp (hm.ne_path hl)
  | some q' =>
    rw [hlook, Option.getD_some] at hp
    subst hp
    obtain ⟨e', hl', hm', _⟩ := s.moved h q' (mem_of_lookup hlook)
    rw [hl'.unique hl] at hm'
    exact r.wellFormed.handle_eq hl hlc (hm'.source_unique hm)

theorem lookup_concat_self (s : r.Partial g moves) {c : Handle} {e : Element} {q : Path}
    (hl : g₀.LiveAt c e) (hm : r.Moves e.path q) : List.lookup c (moves ++ [(c, q)]) = some q := by
  rw [List.lookup_append]
  cases hlook : List.lookup c moves with
  | none => simp
  | some q' =>
    obtain ⟨e', hl', hm', _⟩ := s.moved c q' (mem_of_lookup hlook)
    rw [hl'.unique hl] at hm'
    rw [hm'.target_unique hm, Option.some_or]

theorem moves_child (s : r.Partial g moves) {x c : Handle} {e ec : Element} {q : Path}
    (hx : (x, q) ∈ moves) (hlx : g₀.LiveAt x e) (hlc : g₀.LiveAt c ec) (ho : ec.package = some x) :
    r.Moves ec.path (q.nest ec.name) ∧ r.root.slot < c.slot := by
  obtain ⟨e', hlx', hm, hr⟩ := s.moved x q hx
  obtain ⟨_, _, _, hlt, _⟩ := r.wellFormed.owner c ec x hlc ho
  rw [hlx'.unique hlx] at hm
  have hpath : ec.path = e.path.nest ec.name := by
    rw [r.wellFormed.path_eq c ec hlc, ho, Option.map_some, hlx.pathOf]
    rfl
  rw [hpath]
  exact ⟨hm.nest (r.wellFormed.segment c ec hlc), by omega⟩

theorem step (s : r.Partial g moves) {x c : Handle} {ex e : Element} {q : Path}
    (hx : (x, q) ∈ moves) (hlx : g₀.LiveAt x ex) (hc : c ∈ ex.body.children)
    (he : g.element? c = some e) :
    r.Partial ((g.update (·.relocate (q.nest e.name)) c).reindex e.path (q.nest e.name) c)
      (moves ++ [(c, q.nest e.name)]) := by
  obtain ⟨ec, hlc, hoc⟩ := r.wellFormed.owned x ex c hlx.1 hc
  obtain ⟨hm, hlt⟩ := s.moves_child hx hlx hlc hoc
  obtain ⟨e', hle, hpath, hname, hpack, hbody⟩ := s.liveAt hlc
  obtain rfl := Option.some.inj (he.symm.trans hle.1)
  have hcr : c ≠ r.root := by
    rintro rfl
    omega
  rw [if_neg hcr] at hname
  rw [hname]
  constructor
  case size => simpa [reindex, Graph.update] using s.size
  case roster => exact s.roster
  case registry => exact s.registry
  case element =>
    intro h y hy
    rw [element?_reindex, he]
    by_cases hh : h = c
    · subst hh
      obtain rfl := Option.some.inj (hy.symm.trans hlc.1)
      rw [if_pos rfl, s.lookup_concat_self hlc hm]
      refine ⟨_, rfl, rfl, ?_, hpack, hle.2.trans hlc.2.symm, hbody⟩
      rw [if_neg hcr]
      exact hname
    · rw [if_neg hh, lookup_concat_ne hh]
      exact s.element h y hy
  case lookup_iff =>
    refine lookup_reindex_iff s.lookup_iff hle rfl hle.2 ?_
    intro h x hh hl hp
    obtain ⟨y, hy, hpy, _⟩ := s.liveAt_old hl
    exact hh (s.handle_of_target hy hlc hm (hpy.symm.trans hp))
  case moved =>
    intro h p hp
    rcases List.mem_append.mp hp with hp | hp
    · exact s.moved h p hp
    · simp only [List.mem_singleton, Prod.mk.injEq] at hp
      obtain ⟨rfl, rfl⟩ := hp
      exact ⟨ec, hlc, hm, Nat.le_of_lt hlt⟩
  case linked =>
    intro h p hp
    rcases List.mem_append.mp hp with hp | hp
    · cases s.linked h p hp with
      | inl hr => exact .inl hr
      | inr ho =>
        obtain ⟨y, o, p', hy, ho, hmem, hq⟩ := ho
        exact .inr ⟨y, o, p', hy, ho, List.mem_append_left _ hmem, hq⟩
    · simp only [List.mem_singleton, Prod.mk.injEq] at hp
      obtain ⟨rfl, rfl⟩ := hp
      exact .inr ⟨ec, x, q, hlc, hoc, List.mem_append_left _ hx, rfl⟩

end Partial

def moveChild (walk : Handle → Path → Graph × Graph.Moves → Graph × Graph.Moves) (path : Path)
    (state : Graph × Graph.Moves) (child : Handle) : Graph × Graph.Moves :=
  match state.1.element? child with
  | none => state
  | some e =>
    let new := path.nest e.name
    walk child new
      ((state.1.update (·.relocate new) child).reindex e.path new child, state.2 ++ [(child, new)])

theorem relocateTree_succ (fuel : Nat) (h : Handle) (path : Path) (state : Graph × Graph.Moves) :
    relocateTree (fuel + 1) h path state =
      match state.1.body? h with
      | none => state
      | some body => body.children.foldl (moveChild (relocateTree fuel) path) state := rfl

/-- What the moved elements own has moved, but for the elements that are pending. -/
def ClosedBut (g₀ : Graph) (pending : List Handle) (moves : Graph.Moves) : Prop :=
  ∀ h q e, (h, q) ∈ moves → h ∉ pending → g₀.LiveAt h e →
    ∀ c ∈ e.body.children, ∃ q', (c, q') ∈ moves

/-- A state of the walk, as it follows from an earlier one. -/
structure Follows (r : Renaming g₀) (pending : List Handle) (before : Graph.Moves)
    (state : Graph × Graph.Moves) : Prop where
  partial_ : r.Partial state.1 state.2
  subset : before ⊆ state.2
  closed : ClosedBut g₀ pending state.2

def Walks (r : Renaming g₀) (pending : List Handle) (c : Handle)
    (walk : Handle → Path → Graph × Graph.Moves → Graph × Graph.Moves) : Prop :=
  ∀ state q, r.Partial state.1 state.2 → (c, q) ∈ state.2 → ClosedBut g₀ (c :: pending) state.2 →
    Follows r pending state.2 (walk c q state)

section Walk

variable {walk : Handle → Path → Graph × Graph.Moves → Graph × Graph.Moves}
  {pending : List Handle} {x : Handle} {ex : Element} {q : Path} {before : Graph.Moves}
  {state : Graph × Graph.Moves}

theorem follows_moveChild {c : Handle} (hwalk : r.Walks pending c walk) (hx : (x, q) ∈ state.2)
    (hlx : g₀.LiveAt x ex) (hc : c ∈ ex.body.children) (s : r.Follows pending before state) :
    r.Follows pending before (moveChild walk q state c) ∧
      state.2 ⊆ (moveChild walk q state c).2 ∧ ∃ q', (c, q') ∈ (moveChild walk q state c).2 := by
  obtain ⟨ec, hlc, _⟩ := r.wellFormed.owned x ex c hlx.1 hc
  obtain ⟨e, hle, _⟩ := s.partial_.liveAt hlc
  have hclosed : ClosedBut g₀ (c :: pending) (state.2 ++ [(c, q.nest e.name)]) := by
    intro h p y hp hnot hl d hd
    simp only [List.mem_cons, not_or] at hnot
    rcases List.mem_append.mp hp with hp | hp
    · obtain ⟨q', hq'⟩ := s.closed h p y hp hnot.2 hl d hd
      exact ⟨q', List.mem_append_left _ hq'⟩
    · simp only [List.mem_singleton, Prod.mk.injEq] at hp
      exact absurd hp.1 hnot.1
  have hf := hwalk ((state.1.update (·.relocate (q.nest e.name)) c).reindex e.path (q.nest e.name) c,
    state.2 ++ [(c, q.nest e.name)]) (q.nest e.name) (s.partial_.step hx hlx hc hle.1)
    (List.mem_append_right _ List.mem_cons_self) hclosed
  have hsub : state.2 ⊆ (moveChild walk q state c).2 := by
    intro m hm
    simp only [moveChild, hle.1]
    exact hf.subset (List.mem_append_left _ hm)
  refine ⟨⟨?_, fun m hm => hsub (s.subset hm), ?_⟩, hsub, q.nest e.name, ?_⟩
  · simp only [moveChild, hle.1]
    exact hf.partial_
  · simp only [moveChild, hle.1]
    exact hf.closed
  · simp only [moveChild, hle.1]
    exact hf.subset (List.mem_append_right _ List.mem_cons_self)

theorem follows_children {children : List Handle} (hsub : children ⊆ ex.body.children)
    (hwalk : ∀ c ∈ children, r.Walks pending c walk) (hlx : g₀.LiveAt x ex)
    (hx : (x, q) ∈ state.2) (s : r.Follows pending before state) :
    r.Follows pending before (children.foldl (moveChild walk q) state) ∧
      state.2 ⊆ (children.foldl (moveChild walk q) state).2 ∧
      ∀ c ∈ children, ∃ q', (c, q') ∈ (children.foldl (moveChild walk q) state).2 := by
  induction children generalizing state with
  | nil => exact ⟨s, List.Subset.refl _, by simp⟩
  | cons c children ih =>
    obtain ⟨hs, hmono, q', hq'⟩ :=
      follows_moveChild (hwalk c (by simp)) hx hlx (hsub (by simp)) s
    obtain ⟨hs', hmono', hall⟩ := ih (fun d hd => hsub (List.mem_cons_of_mem c hd))
      (fun d hd => hwalk d (List.mem_cons_of_mem c hd)) (hmono hx) hs
    refine ⟨hs', fun m hm => hmono' (hmono hm), ?_⟩
    intro d hd
    rcases List.mem_cons.mp hd with rfl | hd
    · exact ⟨q', hmono' hq'⟩
    · exact hall d hd

end Walk

theorem walks_relocateTree (fuel : Nat) {pending : List Handle} {x : Handle}
    (hfuel : g₀.elements.size < fuel + x.slot) : r.Walks pending x (relocateTree fuel) := by
  induction fuel generalizing pending x with
  | zero =>
    intro state q s hx _
    obtain ⟨ex, hlx, _⟩ := s.moved x q hx
    have hlt := slot_lt_of_element? hlx.1
    omega
  | succ fuel ih =>
    intro state q s hx hclosed
    obtain ⟨ex, hlx, _⟩ := s.moved x q hx
    obtain ⟨e, hle, _, _, _, hbody⟩ := s.liveAt hlx
    have hb : state.1.body? x = some ex.body := by
      rw [body?, hle.1, Option.map_some, hbody]
    simp only [relocateTree_succ, hb]
    have hwalk : ∀ c ∈ ex.body.children, r.Walks (x :: pending) c (relocateTree fuel) := by
      intro c hc
      obtain ⟨ec, hlc, hoc⟩ := r.wellFormed.owned x ex c hlx.1 hc
      obtain ⟨_, _, _, hlt, _⟩ := r.wellFormed.owner c ec x hlc hoc
      exact ih (by omega)
    obtain ⟨hf, hmono, hall⟩ := follows_children (List.Subset.refl ex.body.children) hwalk hlx hx
      (⟨s, List.Subset.refl _, hclosed⟩ : r.Follows (x :: pending) state.2 state)
    refine ⟨hf.partial_, hmono, ?_⟩
    intro h p y hp hnot hl c hc
    by_cases hh : h = x
    · subst hh
      rw [hl.unique hlx] at hc
      exact hall c hc
    · exact hf.closed h p y hp (by simp [hh, hnot]) hl c hc

def start (r : Renaming g₀) : Graph :=
  (g₀.reindex r.old r.new r.root).update (·.rename r.name r.new) r.root

theorem partial_start : r.Partial r.start [(r.root, r.new)] := by
  have hstart : r.start = (g₀.update (·.rename r.name r.new) r.root).reindex r.old r.new r.root := rfl
  have hmoves : r.Moves r.old r.new := ⟨[], by simp, rfl, rfl⟩
  constructor
  case size => simp [start, reindex, Graph.update]
  case roster => rfl
  case registry => rfl
  case element =>
    intro h e he
    rw [hstart, element?_reindex, r.live.1]
    by_cases hh : h = r.root
    · subst hh
      obtain rfl := Option.some.inj (he.symm.trans r.live.1)
      rw [if_pos rfl, if_pos rfl]
      exact ⟨_, rfl, by simp [Element.rename], rfl, rfl, rfl, rfl⟩
    · rw [if_neg hh, if_neg hh]
      exact ⟨e, he, by rw [← List.nil_append [_], lookup_concat_ne hh]; rfl, rfl, rfl, rfl, rfl⟩
  case lookup_iff =>
    exact lookup_reindex_iff r.wellFormed.lookup_iff r.live rfl r.live.2
      fun _ _ _ hl => hmoves.ne_path hl
  case moved =>
    intro h q hm
    simp only [List.mem_singleton, Prod.mk.injEq] at hm
    obtain ⟨rfl, rfl⟩ := hm
    exact ⟨r.element, r.live, hmoves, Nat.le_refl _⟩
  case linked =>
    intro h q hm
    simp only [List.mem_singleton, Prod.mk.injEq] at hm
    exact .inl hm

def outcome (r : Renaming g₀) : Graph × Graph.Moves :=
  relocateTree r.start.fuel r.root r.new (r.start, [(r.root, r.new)])

theorem follows_outcome (r : Renaming g₀) : r.Follows [] [(r.root, r.new)] r.outcome := by
  refine walks_relocateTree r.start.fuel ?_ (r.start, [(r.root, r.new)]) r.new partial_start (by simp) ?_
  · have hs := (partial_start (r := r)).size
    rw [fuel, hs]
    omega
  · intro h q e hm hnot
    simp only [List.mem_singleton, Prod.mk.injEq] at hm
    exact absurd hm.1 (by simpa using hnot)

theorem lookup_outcome (r : Renaming g₀) {h : Handle} {e : Element} (hl : g₀.LiveAt h e)
    (hr : h ≠ r.root) : List.lookup h r.outcome.2 =
      (e.package.bind fun o => List.lookup o r.outcome.2).map (·.nest e.name) := by
  have hf := r.follows_outcome
  have s := hf.partial_
  have hlinked : ∀ {q}, List.lookup h r.outcome.2 = some q →
      ∃ o p, e.package = some o ∧ List.lookup o r.outcome.2 = some p ∧ q = p.nest e.name := by
    intro q hq
    cases s.linked h q (mem_of_lookup hq) with
    | inl hroot => exact absurd hroot.1 hr
    | inr hmoved =>
      obtain ⟨e', o, p, hl', ho, hmem, rfl⟩ := hmoved
      rw [hl'.unique hl] at ho ⊢
      exact ⟨o, p, ho, s.lookup_eq hmem, rfl⟩
  cases hlh : List.lookup h r.outcome.2 with
  | some q =>
    obtain ⟨o, p, ho, hlo, rfl⟩ := hlinked hlh
    rw [ho, Option.bind_some, hlo, Option.map_some]
  | none =>
    cases ho : e.package with
    | none => rfl
    | some o =>
      cases hlo : List.lookup o r.outcome.2 with
      | none => rw [Option.bind_some, hlo, Option.map_none]
      | some q =>
        obtain ⟨p, hp, _, _, hcount⟩ := r.wellFormed.owner h e o hl ho
        have hchild : h ∈ p.body.children := by
          rw [← List.count_pos_iff, hcount]
          exact Nat.one_pos
        obtain ⟨q', hq'⟩ := hf.closed o q p (mem_of_lookup hlo) (by simp) hp h hchild
        exact absurd hq' (not_mem_of_lookup hlh q')

/-- The owner of the root has not moved, because what has moved is not older than the root. -/
theorem lookup_owner_of_root (r : Renaming g₀) {o : Handle} (ho : r.element.package = some o) :
    List.lookup o r.outcome.2 = none := by
  obtain ⟨_, _, _, hlt, _⟩ := r.wellFormed.owner r.root r.element o r.live ho
  cases hlo : List.lookup o r.outcome.2 with
  | none => rfl
  | some q =>
    obtain ⟨_, _, _, hle⟩ := r.follows_outcome.partial_.moved o q (mem_of_lookup hlo)
    omega

theorem pathOf_outcome (r : Renaming g₀) {h : Handle} {e : Element} (hl : g₀.LiveAt h e) :
    r.outcome.1.pathOf h = (List.lookup h r.outcome.2).getD e.path := by
  obtain ⟨e', hl', hp, _⟩ := r.follows_outcome.partial_.liveAt hl
  rw [hl'.pathOf, hp]

theorem path_eq_outcome (r : Renaming g₀) {h : Handle} {e' : Element} (hl' : r.outcome.1.LiveAt h e') :
    e'.path = Path.join (e'.package.map r.outcome.1.pathOf) e'.name := by
  have hf := r.follows_outcome
  have w := r.wellFormed
  obtain ⟨e, hl, hpath, hname, hpk, _⟩ := hf.partial_.liveAt_old hl'
  rw [hpath, hname, hpk]
  by_cases hr : h = r.root
  · subst hr
    obtain rfl := hl.unique r.live
    have hroot : (r.root, r.new) ∈ r.outcome.2 := hf.subset (by simp)
    rw [hf.partial_.lookup_eq hroot, Option.getD_some, if_pos rfl, new, old,
      w.package?_path r.live]
    cases ho : r.element.package with
    | none => rfl
    | some o =>
      obtain ⟨p, hp, _⟩ := w.owner r.root r.element o r.live ho
      rw [Option.map_some, Option.map_some, r.pathOf_outcome hp, r.lookup_owner_of_root ho,
        Option.getD_none, hp.pathOf]
  · rw [if_neg hr, w.path_eq h e hl, r.lookup_outcome hl hr]
    cases ho : e.package with
    | none => rfl
    | some o =>
      obtain ⟨p, hp, _⟩ := w.owner h e o hl ho
      rw [Option.bind_some, Option.map_some, Option.map_some, r.pathOf_outcome hp, hp.pathOf]
      cases List.lookup o r.outcome.2 <;> rfl

theorem wellFormed_outcome (r : Renaming g₀) : r.outcome.1.WellFormed := by
  have s := r.follows_outcome.partial_
  have w := r.wellFormed
  constructor
  case lookup_iff => exact s.lookup_iff
  case owner =>
    intro h e' o hl' ho
    obtain ⟨e, hl, _, _, hpk, _⟩ := s.liveAt_old hl'
    obtain ⟨p, hp, hk, hlt, hcount⟩ := w.owner h e o hl (hpk.symm.trans ho)
    obtain ⟨p', hp', _, _, _, hb⟩ := s.liveAt hp
    exact ⟨p', hp', (congrArg Body.kind hb).trans hk, hlt, hb ▸ hcount⟩
  case owned =>
    intro o p' h hp' hm
    obtain ⟨p, hp, _, _, _, _, hb⟩ := s.element?_old hp'
    obtain ⟨e, hl, ho⟩ := w.owned o p h hp (hb ▸ hm)
    obtain ⟨e', hl', _, _, hpk, _⟩ := s.liveAt hl
    exact ⟨e', hl', hpk.trans ho⟩
  case path_eq => exact fun h e' hl' => r.path_eq_outcome hl'
  case segment =>
    intro h e' hl'
    obtain ⟨e, hl, _, hname, _⟩ := s.liveAt_old hl'
    rw [hname]
    split
    · exact r.segment
    · exact w.segment h e hl

theorem rostered_outcome (r : Renaming g₀) (w : g₀.Rostered) : r.outcome.1.Rostered := by
  have s := r.follows_outcome.partial_
  refine ⟨s.roster ▸ w.nodup, ?_⟩
  intro k h
  rw [s.roster, w.mem_iff]
  constructor
  · rintro ⟨e, hl, rfl⟩
    obtain ⟨e', hl', _, _, _, hb⟩ := s.liveAt hl
    exact ⟨e', hl', congrArg Body.kind hb⟩
  · rintro ⟨e', hl', rfl⟩
    obtain ⟨e, hl, _, _, _, hb⟩ := s.liveAt_old hl'
    exact ⟨e, hl, congrArg Body.kind hb.symm⟩

end Renaming

/-- A renaming that succeeds leaves the graph as it is, or moves the element with all that it owns,
and then lets the references follow. -/
theorem rename_eq_ok (w : g₀.WellFormed) {h : Handle} {e : Element} (hl : g₀.LiveAt h e)
    {name : String} (hs : Path.IsSegment name) (hr : g₀.rename h name = .ok g) :
    g = g₀ ∨ ∃ r : Renaming g₀, r.root = h ∧ g = r.outcome.1.repoint r.outcome.2 := by
  unfold rename at hr
  simp only [hl.1] at hr
  obtain ⟨_, hr⟩ := check_eq_ok.mp hr
  obtain ⟨_, hr⟩ := check_eq_ok.mp hr
  split at hr
  · exact .inl (pure_eq_ok.mp hr).symm
  · obtain ⟨hfree, hr⟩ := check_eq_ok.mp hr
    have hfree : g₀.lookup (Path.join e.path.package? name) = none :=
      Index.contains_eq_false_iff.mp (by simpa using hfree)
    exact .inr ⟨⟨h, e, name, w, hl, hs, hfree⟩, rfl, (pure_eq_ok.mp hr).symm⟩

end ModelGraph.Graph
