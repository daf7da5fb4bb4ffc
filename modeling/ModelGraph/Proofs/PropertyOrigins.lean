import ModelGraph.Proofs.CanonicalModels
import ModelGraph.Proofs.PropertySearches

namespace ModelGraph.Graph

variable {g g' : Graph} {name : String} {h k : Handle} {fuel : Nat} {visited : List Handle}

theorem findProperty_eq_supply {c : Class} (hb : g.body? h = some (.class c)) :
    g.findProperty h name = ((g.endOf? h name).bind (g.supply name)).elim
      (.error (.propertyNotFound (g.pathOf h) name)) .ok := by
  rw [findProperty_of_class hb, (ends_searchProperty g.fuel h []).found]
  rfl

theorem isSome_supply {k : Handle} (hk : g.endOf? h name = some k) :
    ∃ p, g.supply name k = some p := by
  have e : g.Ends name (g.searchProperty name g.fuel h []) (g.searchEnd name g.fuel h []) :=
    ends_searchProperty g.fuel h []
  have hend : (g.searchEnd name g.fuel h []).1 = some k := hk
  have hsome := e.isSome
  rw [e.found, hend, Option.bind_some] at hsome
  exact Option.isSome_iff_exists.mp hsome

/-- An association gives a class a property of a name. -/
def Gives (g : Graph) (name : String) (d k : Handle) : Prop :=
  d ∈ g.handles .association ∧
    ∃ a, g.body? d = some (.association a) ∧ (a.given k name).isSome = true

theorem gives_iff {d : Handle} : g.Gives name d k ↔ d ∈ g.handles .association ∧
    (((g.body? d).bind Body.association?).bind fun a => a.given k name).isSome = true := by
  refine and_congr_right fun _ => ⟨?_, fun hs => ?_⟩
  · rintro ⟨a, ha, hs⟩
    rw [ha]
    exact hs
  · obtain ⟨x, hx⟩ := Option.isSome_iff_exists.mp hs
    obtain ⟨a, ha, hx⟩ := Option.bind_eq_some_iff.mp hx
    exact ⟨a, body?_of_association? ha, Option.isSome_of_eq_some hx⟩

/-- The element that declares the property which a class supplies: the class itself, or else, of the
associations in the order in which they came, the first one that gives it a property of the name. -/
inductive Declared (g : Graph) (name : String) (k : Handle) : Handle → Property → Prop
  | own {c : Class} {x : Property} : g.body? k = some (.class c) →
      c.findProperty name = some x → Declared g name k k x
  | given {c : Class} {a : Association} {before after : List Handle} {d : Handle} {x : Property} :
      g.body? k = some (.class c) → c.findProperty name = none →
      g.handles .association = before ++ d :: after → (∀ b ∈ before, ¬g.Gives name b k) →
      g.body? d = some (.association a) → a.given k name = some x → Declared g name k d x

theorem exists_declared {x : Property} (hs : g.supply name k = some x) :
    ∃ d, g.Declared name k d x := by
  obtain ⟨c, hc, hx⟩ := Option.bind_eq_some_iff.mp hs
  rcases Option.or_eq_some_iff.mp hx with hown | ⟨hnone, hgiven⟩
  · exact ⟨k, .own (body?_of_class? hc) hown⟩
  · rw [associationProperty_eq, List.findSome?_eq_some_iff] at hgiven
    obtain ⟨before, d, after, hd, hx, hbefore⟩ := hgiven
    obtain ⟨a, ha, hx⟩ := Option.bind_eq_some_iff.mp hx
    refine ⟨d, .given (body?_of_class? hc) hnone hd ?_ (body?_of_association? ha) hx⟩
    rintro b hb ⟨-, a', ha', hsome⟩
    have hfirst := hbefore b hb
    rw [ha', Option.bind_some] at hfirst
    rw [show a'.given k name = none from hfirst] at hsome
    cases hsome

theorem Declared.body? {d : Handle} {x : Property} (hd : g.Declared name k d x) :
    (∃ b, g.body? k = some b) ∧ ∃ b, g.body? d = some b := by
  cases hd with
  | own hb => exact ⟨⟨_, hb⟩, _, hb⟩
  | given hb _ _ _ ha => exact ⟨⟨_, hb⟩, _, ha⟩

theorem exists_class_of_endOf? (hk : g.endOf? h name = some k) :
    ∃ c, g.body? h = some (.class c) := by
  cases hc : (g.body? h).bind Body.class? with
  | some c => exact ⟨c, body?_of_class? hc⟩
  | none =>
    rw [endOf?, fuel, searchEnd_none (by simp) hc] at hk
    cases hk

/-- A class finds a property at a class, itself or one that it extends, where an element declares
it. -/
structure Finds (g : Graph) (h : Handle) (name : String) (k d : Handle) (x : Property) : Prop where
  ends : g.endOf? h name = some k
  subtype : g.SubtypeOf h k
  declared : g.Declared name k d x
  found : g.findProperty h name = .ok x

theorem findProperty_end {c : Class} (hb : g.body? h = some (.class c)) (name : String) :
    (g.endOf? h name = none ∧
        g.findProperty h name = .error (.propertyNotFound (g.pathOf h) name)) ∨
      ∃ k d x, g.Finds h name k d x := by
  have hf : g.findProperty h name = _ := findProperty_eq_supply hb
  cases hk : g.endOf? h name with
  | none =>
    rw [hk] at hf
    exact .inl ⟨rfl, hf⟩
  | some k =>
    obtain ⟨x, hx⟩ := isSome_supply hk
    obtain ⟨d, hd⟩ := exists_declared hx
    rw [hk, Option.bind_some, hx] at hf
    exact .inr ⟨k, d, x, hk, subtypeOf_searchEnd hk, hd, hf⟩

theorem findProperty_of_association {a : Association} (hb : g.body? h = some (.association a)) :
    g.findProperty h name = ((a.findProperty name).elim
      (.error (.propertyNotFound (g.pathOf h) name)) .ok) := by
  rw [findProperty, hb]
  simp only
  cases a.findProperty name <;> rfl

theorem body?_of_findProperty {x : Property} (hx : g.findProperty h name = .ok x) :
    (∃ c, g.body? h = some (.class c)) ∨ ∃ a, g.body? h = some (.association a) := by
  rw [findProperty] at hx
  split at hx
  · next hfound =>
    split at hfound
    · next c hb => exact .inl ⟨c, hb⟩
    · next a hb => exact .inr ⟨a, hb⟩
    · cases hfound
  · cases hx

namespace Mirrors

variable {μ : Path → Path} {φ : Handle → Handle} (m : Mirrors μ φ g g')
include m

theorem class? (h : Handle) : (g'.body? (φ h)).bind Body.class? =
    ((g.body? h).bind Body.class?).map (Class.rebind (carry μ φ)) := by
  rw [m.view Body.class?_outline, Option.map_bind]
  simp only [Body.class?_rebind, Function.comp_def]

omit m in
theorem endAll_rebind (hsearch : ∀ h visited, g'.searchEnd name fuel (φ h) (visited.map φ) =
      ((g.searchEnd name fuel h visited).1.map φ, (g.searchEnd name fuel h visited).2.map φ))
    (c : Class) (visited : List Handle) :
    g'.endAll name fuel (c.rebind (carry μ φ)) (visited.map φ) =
      ((g.endAll name fuel c visited).1.map φ, (g.endAll name fuel c visited).2.map φ) := by
  have hfold : ∀ (ks : List Handle) (s : Option Handle × List Handle),
      (ks.map φ).foldl (g'.endNext name fuel) (s.1.map φ, s.2.map φ) =
        ((ks.foldl (g.endNext name fuel) s).1.map φ,
          (ks.foldl (g.endNext name fuel) s).2.map φ) := by
    intro ks
    induction ks with
    | nil => exact fun s => rfl
    | cons k ks ih =>
      rintro ⟨last, seen⟩
      rw [List.map_cons, List.foldl_cons, List.foldl_cons, ← ih]
      cases last with
      | some l => rfl
      | none => exact congrArg (List.foldl _ · _) (hsearch k seen)
  rw [endAll, endAll, c.targets_rebind]
  exact hfold _ (none, visited)

variable (ro : g.Rostered) (ro' : g'.Rostered)
include ro ro'

theorem searchEnd (fuel : Nat) (h : Handle) (visited : List Handle) :
    g'.searchEnd name fuel (φ h) (visited.map φ) =
      ((g.searchEnd name fuel h visited).1.map φ, (g.searchEnd name fuel h visited).2.map φ) := by
  induction fuel generalizing h visited with
  | zero => rfl
  | succ fuel ih =>
    have hvisited := m.contains_map visited h
    have happend : visited.map φ ++ [φ h] = (visited ++ [h]).map φ := by
      rw [List.map_append]
      rfl
    have hclass := m.class? h
    by_cases hv : visited.contains h = true
    · rw [searchEnd_visited hv, searchEnd_visited (hvisited.trans hv)]
      rfl
    have hv' : ¬(visited.map φ).contains (φ h) = true := hvisited ▸ hv
    cases hc : (g.body? h).bind Body.class? with
    | none =>
      rw [hc] at hclass
      rw [searchEnd_none hv hc, searchEnd_none hv' hclass, happend]
      rfl
    | some c =>
      rw [hc] at hclass
      have hproperty := c.findProperty_rebind (carry μ φ) name
      cases hp : c.findProperty name with
      | some p =>
        rw [hp] at hproperty
        rw [searchEnd_own hv hc hp, searchEnd_own hv' hclass hproperty, happend]
        rfl
      | none =>
        rw [hp] at hproperty
        rw [searchEnd_inherited hv hc hp, searchEnd_inherited hv' hclass hproperty, happend,
          endAll_rebind ih, m.isSome_associationProperty ro ro']
        cases (g.endAll name fuel c (visited ++ [h])).1 with
        | some k => rfl
        | none => cases (g.associationProperty h name).isSome <;> rfl

theorem endOf? (h : Handle) (name : String) : g'.endOf? (φ h) name = (g.endOf? h name).map φ := by
  rw [Graph.endOf?, Graph.endOf?, m.fuel_eq]
  exact congrArg Prod.fst (m.searchEnd ro ro' g.fuel h [])

theorem gives_iff {d : Handle} : g'.Gives name (φ d) (φ k) ↔ g.Gives name d k := by
  rw [Graph.gives_iff, Graph.gives_iff, m.mem_handles ro ro', m.given_at, Option.isSome_map]

/-- What is declared at the end of a search in both graphs is declared by the same element, and it
is the same property, unless two associations give one of the name. -/
theorem declared {d d' : Handle} {x x' : Property} (hd : g.Declared name k d x)
    (hd' : g'.Declared name (φ k) d' x') : (d' = φ d ∧ x' = x.rebind (carry μ φ)) ∨
      ∃ b, d' = φ b ∧ b ≠ d ∧ g.Gives name d k ∧ g.Gives name b k := by
  have hclass := m.class? k
  cases hd with
  | @own c x hb hx =>
    rw [class?_of_body? hb, Option.map_some] at hclass
    have hproperty := c.findProperty_rebind (carry μ φ) name
    rw [hx] at hproperty
    cases hd' with
    | own hb' hx' =>
      rw [class?_of_body? hb', Option.some.injEq] at hclass
      rw [← hclass, hx', Option.map_some, Option.some.injEq] at hproperty
      exact .inl ⟨rfl, hproperty⟩
    | given hb' hnone' =>
      rw [class?_of_body? hb', Option.some.injEq] at hclass
      rw [← hclass, hnone'] at hproperty
      cases hproperty
  | @given c a before after d x hb hnone hd hbefore ha hx =>
    rw [class?_of_body? hb, Option.map_some] at hclass
    have hproperty := c.findProperty_rebind (carry μ φ) name
    rw [hnone] at hproperty
    cases hd' with
    | own hb' hx' =>
      rw [class?_of_body? hb', Option.some.injEq] at hclass
      rw [← hclass, hx'] at hproperty
      cases hproperty
    | @given c' a' before' after' d' x' hb' hnone' hd' hbefore' ha' hx' =>
      obtain ⟨b, rfl⟩ := m.surjective d'
      by_cases hbd : b = d
      · have hgiven : (((g'.body? (φ b)).bind Body.association?).bind fun a =>
            a.given (φ k) name) = _ := m.given_at b k
        rw [ha', hbd, ha] at hgiven
        have hgiven : a'.given (φ k) name = (a.given k name).map _ := hgiven
        rw [hx', hx, Option.map_some, Option.some.injEq] at hgiven
        exact .inl ⟨congrArg φ hbd, hgiven⟩
      · have hgives : g.Gives name d k :=
          ⟨hd ▸ by simp, a, ha, Option.isSome_of_eq_some hx⟩
        have hgives' : g'.Gives name (φ b) (φ k) :=
          ⟨hd' ▸ by simp, a', ha', Option.isSome_of_eq_some hx'⟩
        exact .inr ⟨b, rfl, hbd, hgives, (m.gives_iff ro ro').mp hgives'⟩

theorem findProperty_eq {x x' : Property} (hx : g.findProperty h name = .ok x)
    (hx' : g'.findProperty (φ h) name = .ok x')
    (hsame : ∀ {k d x k' d' x'}, g.Finds h name k d x → g'.Finds (φ h) name k' d' x' →
      d' = φ d) :
    x' = x.rebind (carry μ φ) := by
  rcases body?_of_findProperty hx with ⟨c, hb⟩ | ⟨a, hb⟩
  · have hclass := m.class? h
    rw [class?_of_body? hb] at hclass
    rcases findProperty_end hb name with ⟨-, hnone⟩ | ⟨k, d, y, hfinds⟩
    · rw [hnone] at hx
      cases hx
    rcases findProperty_end (body?_of_class? hclass) name with
      ⟨-, hnone⟩ | ⟨k', d', y', hfinds'⟩
    · rw [hnone] at hx'
      cases hx'
    obtain rfl := Except.ok.inj (hfinds.found.symm.trans hx)
    obtain rfl := Except.ok.inj (hfinds'.found.symm.trans hx')
    have hend := m.endOf? ro ro' h name
    rw [hfinds.ends, hfinds'.ends, Option.map_some, Option.some.injEq] at hend
    rcases m.declared ro ro' hfinds.declared (hend ▸ hfinds'.declared) with
      ⟨-, hyy⟩ | ⟨b, hdb, hne, -⟩
    · exact hyy
    · exact absurd (m.injective _ _ (hdb.symm.trans (hsame hfinds hfinds'))) hne
  · have hassociation := m.view Body.association?_outline h
    simp only [hb, Option.bind_some, Body.association?_rebind] at hassociation
    rw [findProperty_of_association hb] at hx
    rw [findProperty_of_association (body?_of_association? hassociation),
      a.findProperty_rebind] at hx'
    cases hf : a.findProperty name with
    | none =>
      rw [hf] at hx
      cases hx
    | some y =>
      rw [hf] at hx hx'
      cases hx
      cases hx'
      rfl

end Mirrors

/-- A property mapping looks up a property, and names a target for its values. -/
def LooksUp (g : Graph) (owner : Handle) (name : String) : Prop :=
  ∃ k e n s q, g.LiveAt k e ∧ e.body = .mapping n ∧ s ∈ n.slots ∧ q ∈ s.properties ∧
    q.owner.target = some owner ∧ q.property = name ∧
    (q.target.filter fun id => !id.isEmpty).isSome = true

/-- The property of a class is declared at the same path in two graphs, if it is found in both. -/
def SameDeclarer (g g' : Graph) (name : String) (h h' : Handle) : Prop :=
  ∀ ⦃k d x k' d' x'⦄, g.Finds h name k d x → g'.Finds h' name k' d' x' → g'.pathOf d' = g.pathOf d

theorem Mirrors.exists_looksUp {μ : Path → Path} {φ : Handle → Handle} (m : Mirrors μ φ g g')
    {owner' : Handle} (hl : g'.LooksUp owner' name) :
    ∃ owner, owner' = φ owner ∧ g.LooksUp owner name := by
  obtain ⟨k', e', n', s', q', hl', hb', hs', hq', howner', rfl, htarget'⟩ := hl
  obtain ⟨k, e, n, rfl, hl, hb⟩ := m.exists_liveAt_mapping hl' hb'
  have houtline := m.mapping? k
  rw [mapping?_of_live hl hb, mapping?_of_live hl' hb', Option.map_some, Option.map_some,
    Option.some.injEq] at houtline
  obtain ⟨s, hs, hslot⟩ := exists_slot houtline hs'
  obtain ⟨q, hq, hqq⟩ := exists_property hslot hq'
  have howner : q'.owner = carry μ φ _ q.owner := congrArg PropertyMapping.owner hqq
  have hname := congrArg PropertyMapping.property hqq
  have htarget := congrArg PropertyMapping.target hqq
  change q'.property = q.property at hname
  change q'.target = q.target at htarget
  rw [howner, carry] at howner'
  obtain ⟨owner, ho, rfl⟩ := Option.map_eq_some_iff.mp howner'
  exact ⟨owner, rfl, k, e, n, s, q, hl, hb, hs, hq, ho, hname.symm, htarget ▸ htarget'⟩

section Permuted

variable {g₁ g₁' : Graph} {contents contents' : List (Path × Body)} {μ : Path → Path}

/-- Two graphs of the same entities, which came in any order, at their counterparts. -/
structure Reordered (φ : Handle → Handle) (g g' : Graph) : Prop extends Copies id φ g g' where
  rostered : g.Rostered
  rostered' : g'.Rostered
  wellFormed' : g'.WellFormed
  liveAt : ∀ {h b}, g.body? h = some b → ∃ e, g.LiveAt h e ∧ e.body = b
  liveAt' : ∀ {h b}, g'.body? h = some b → ∃ e, g'.LiveAt h e ∧ e.body = b
  liveAt_path : ∀ {h e}, g.LiveAt h e → ∃ e', g'.LiveAt (φ h) e' ∧ e'.path = e.path

theorem Prepared.reordered {r : Registry} {m m' : Model} {entries entries' : List Entry}
    (p : Prepared r m entries contents g₁) (p' : Prepared r m' entries' contents' g₁')
    (hm : m.Perm m') :
    Reordered (g₁.counterpart id g₁') g₁.resolveAll.1 g₁'.resolveAll.1 := by
  have hp := p.perm p' hm
  have t := relocates_of_perm p.stocked hp
  refine { toCopies := p.bound.copies_relocated p'.bound t ?_, rostered := p.bound.rostered,
           rostered' := p'.bound.rostered, wellFormed' := p'.bound.wellFormed,
           liveAt := p.bound.liveAt, liveAt' := p'.bound.liveAt,
           liveAt_path := p.bound.liveAt_image p'.bound t }
  intro q b b' hb hb'
  rw [p.stocked.unique (.content hb) (.content (hp.mem_iff.mpr hb'))]

namespace Reordered

variable {φ : Handle → Handle} (o : Reordered φ g g')
include o

theorem eq_of_path {h' : Handle} {e e' : Element} (hl : g.LiveAt h e) (hl' : g'.LiveAt h' e')
    (hp : e'.path = e.path) : h' = φ h := by
  obtain ⟨e'', hl'', hpath⟩ := o.liveAt_path hl
  exact o.wellFormed'.handle_eq hl' hl'' (hp.trans hpath.symm)

theorem pathOf {b : Body} (hb : g.body? h = some b) : g'.pathOf (φ h) = g.pathOf h := by
  obtain ⟨e, hl, -⟩ := o.liveAt hb
  obtain ⟨e', hl', hpath⟩ := o.liveAt_path hl
  rw [hl.pathOf, hl'.pathOf, hpath]

theorem lookup_pathOf {b : Body} (hb : g.body? h = some b) :
    g'.lookup (g.pathOf h) = some (φ h) := by
  obtain ⟨e, hl, -⟩ := o.liveAt hb
  obtain ⟨e', hl', hpath⟩ := o.liveAt_path hl
  rw [hl.pathOf, ← hpath, o.wellFormed'.lookup_path hl']

theorem eq_of_pathOf {h' : Handle} {b b' : Body} (hb : g.body? h = some b)
    (hb' : g'.body? h' = some b') (hp : g'.pathOf h' = g.pathOf h) : h' = φ h := by
  obtain ⟨e, hl, -⟩ := o.liveAt hb
  obtain ⟨e', hl', -⟩ := o.liveAt' hb'
  exact o.eq_of_path hl hl' (by rw [← hl.pathOf, ← hl'.pathOf, hp])

theorem findProperty_or {c : Class} (hb : g.body? h = some (.class c)) (name : String) :
    (g.findProperty h name = .error (.propertyNotFound (g.pathOf h) name) ∧
      g'.findProperty (φ h) name = .error (.propertyNotFound (g.pathOf h) name)) ∨
    ∃ k d x k' d' x', g.Finds h name k d x ∧ g'.Finds (φ h) name k' d' x' ∧
      g'.pathOf k' = g.pathOf k ∧
      ((g'.pathOf d' = g.pathOf d ∧ x'.type.path = x.type.path) ∨
        ∃ b, b ≠ d ∧ g'.pathOf d' = g.pathOf b ∧ g.Gives name d k ∧ g.Gives name b k) := by
  have hclass := o.class? h
  rw [class?_of_body? hb] at hclass
  have hend := o.endOf? o.rostered o.rostered' h name
  rcases findProperty_end hb name with ⟨hnone, hf⟩ | ⟨k, d, x, hfinds⟩
  · rcases findProperty_end (body?_of_class? hclass) name with
      ⟨-, hf'⟩ | ⟨k', d', x', hfinds'⟩
    · exact .inl ⟨hf, o.pathOf hb ▸ hf'⟩
    · rw [hnone, hfinds'.ends] at hend
      cases hend
  · rcases findProperty_end (body?_of_class? hclass) name with
      ⟨hnone', -⟩ | ⟨k', d', x', hfinds'⟩
    · rw [hfinds.ends, hnone'] at hend
      cases hend
    · rw [hfinds.ends, hfinds'.ends, Option.map_some, Option.some.injEq] at hend
      obtain ⟨⟨b, hbk⟩, b', hbd⟩ := hfinds.declared.body?
      refine .inr ⟨k, d, x, k', d', x', hfinds, hfinds', hend ▸ o.pathOf hbk, ?_⟩
      rcases o.declared o.rostered o.rostered' hfinds.declared (hend ▸ hfinds'.declared) with
        ⟨rfl, rfl⟩ | ⟨b, rfl, hne, hgives, hgives'⟩
      · exact .inl ⟨o.pathOf hbd, rfl⟩
      · obtain ⟨a, ha, -⟩ := hgives'.2
        exact .inr ⟨b, hne, o.pathOf ha, hgives, hgives'⟩

/-- Where no class is given a property of one name twice, no declaration depends on the order. -/
theorem sameDeclarer {h' : Handle} (honce : ∀ {d b k}, g.Gives name d k → g.Gives name b k → b = d)
    (hlookup : g'.lookup (g.pathOf h) = some h') : g.SameDeclarer g' name h h' := by
  intro k d x k' d' x' hfinds hfinds'
  obtain ⟨c, hc⟩ := exists_class_of_endOf? hfinds.ends
  rw [o.lookup_pathOf hc] at hlookup
  obtain rfl := Option.some.inj hlookup
  have hend := o.endOf? o.rostered o.rostered' h name
  rw [hfinds.ends, hfinds'.ends, Option.map_some, Option.some.injEq] at hend
  obtain ⟨-, b, hbd⟩ := hfinds.declared.body?
  rcases o.declared o.rostered o.rostered' hfinds.declared (hend ▸ hfinds'.declared) with
    ⟨rfl, -⟩ | ⟨b, -, hne, hgives, hgives'⟩
  · exact o.pathOf hbd
  · exact absurd (honce hgives hgives') hne

/-- Nothing is wrong with the wiring in another order where nothing is wrong with it, if the
property of each property mapping with a target is declared at the same path. -/
theorem allWiringFaults_eq_nil (hs : ∀ h h' name, g.LooksUp h name →
      g'.lookup (g.pathOf h) = some h' → g.SameDeclarer g' name h h')
    (hf : g.allWiringFaults = []) : g'.allWiringFaults = [] := by
  refine o.allWiringFaults_eq_nil_of_classes o.rostered o.rostered' ?_ hf
  intro k e n s q owner x x' hl hb hslot hq howner htarget hx hx' hsome
  have hrebind : x' = x.rebind (carry id φ) := by
    refine o.findProperty_eq o.rostered o.rostered' hx hx' ?_
    intro k₀ d y k₀' d' y' hfinds hfinds'
    obtain ⟨c, hc⟩ := exists_class_of_endOf? hfinds.ends
    have hsame := hs owner (φ owner) q.property
      ⟨k, e, n, s, q, hl, hb, hslot, hq, howner, rfl, htarget⟩ (o.lookup_pathOf hc)
    obtain ⟨-, b, hbd⟩ := hfinds.declared.body?
    obtain ⟨-, b', hbd'⟩ := hfinds'.declared.body?
    exact o.eq_of_pathOf hbd hbd' (hsame hfinds hfinds')
  rw [hrebind, o.classOf?, Option.isSome_map] at hsome
  exact hsome

theorem sameDeclarer_symm {ψ : Handle → Handle} (o' : Reordered ψ g' g)
    (hs : ∀ h h' name, g.LooksUp h name → g'.lookup (g.pathOf h) = some h' →
      g.SameDeclarer g' name h h') :
    ∀ h' h name, g'.LooksUp h' name → g.lookup (g'.pathOf h') = some h →
      g'.SameDeclarer g name h' h := by
  intro h' h name hl' hlookup k' d' x' k d x hfinds' hfinds
  obtain ⟨owner, rfl, hl⟩ := o.exists_looksUp hl'
  obtain ⟨c', hc'⟩ := exists_class_of_endOf? hfinds'.ends
  have hclass := o.class? owner
  rw [class?_of_body? hc'] at hclass
  obtain ⟨c, hc, -⟩ := Option.map_eq_some_iff.mp hclass.symm
  have hb := body?_of_class? hc
  obtain ⟨e, hlive, -⟩ := o.liveAt hb
  rw [o.pathOf hb, hlive.pathOf, o'.wellFormed'.lookup_path hlive] at hlookup
  obtain rfl := Option.some.inj hlookup
  exact (hs owner (φ owner) name hl (o.lookup_pathOf hb) hfinds hfinds').symm

end Reordered

section Prepared

variable {r : Registry} {m m' : Model} {entries entries' : List Entry}

/-- How far properties depend on the order of entities. The search for the property of a class fails
in both graphs, or ends at the class of the same path in both. What is declared there is declared by
the element of the same path, and with the same type path, unless the class declares nothing and two
associations give it a property of the name: then each graph takes that of the association which
came first. Nothing is wrong with the wiring in one order exactly if nothing is in the other,
provided that the properties of property mappings with a target are declared at the same paths;
without this, class mappings are all that can be missing in the other order. -/
theorem findProperty_of_perm (p : Prepared r m entries contents g₁)
    (p' : Prepared r m' entries' contents' g₁') (hm : m.Perm m') (hg : g₁.resolveAll.1 = g)
    (hg' : g₁'.resolveAll.1 = g') :
    (∀ h e c, g.LiveAt h e → e.body = .class c → ∃ h', g'.lookup e.path = some h' ∧ ∀ name,
      (g.findProperty h name = .error (.propertyNotFound e.path name) ∧
        g'.findProperty h' name = .error (.propertyNotFound e.path name)) ∨
      ∃ k d x k' d' x', g.Finds h name k d x ∧ g'.Finds h' name k' d' x' ∧
        g'.pathOf k' = g.pathOf k ∧
        ((g'.pathOf d' = g.pathOf d ∧ x'.type.path = x.type.path) ∨
          ∃ b, b ≠ d ∧ g'.pathOf d' = g.pathOf b ∧ g.Gives name d k ∧ g.Gives name b k)) ∧
    ((∀ h h' name, g.LooksUp h name → g'.lookup (g.pathOf h) = some h' →
        g.SameDeclarer g' name h h') →
      (g.allWiringFaults = [] ↔ g'.allWiringFaults = [])) ∧
    (g.allWiringFaults = [] →
      ∀ d ∈ g'.allWiringFaults, d.code = some .classMappingNotFound) := by
  have o := p.reordered p' hm
  have o' := p'.reordered p hm.symm
  rw [hg, hg'] at o o'
  refine ⟨fun h e c hl hb => ?_, fun hs => ⟨o.allWiringFaults_eq_nil hs, ?_⟩, fun hf d hd => ?_⟩
  · have hbody : g.body? h = some (.class c) := by rw [body?, hl.1, Option.map_some, hb]
    rw [← hl.pathOf]
    exact ⟨_, o.lookup_pathOf hbody, o.findProperty_or hbody⟩
  · exact o'.allWiringFaults_eq_nil (o.sameDeclarer_symm o' hs)
  · exact code_of_allWiringFaults o.toCopies o.rostered o.rostered' hf hd

theorem Prepared.graph_eq (p : Prepared r m entries contents g₁) {entries₀ : List Entry}
    (hc : checkModel r m = .ok entries₀) : g₁ = (register entries₀ (new r)).1 := by
  have hentries := checkModel_eq_ok.mpr ⟨p.entities, p.nodup, p.passes⟩
  rw [hc, Except.ok.injEq] at hentries
  rw [hentries, p.registered]

end Prepared
end Permuted

theorem findProperty_of_perm_association : ∃ entries contents g₁ entries' contents' g₁' x x',
    Prepared Preset.full (associationModel [endEntity "Z" "String"]) entries contents g₁ ∧
    Prepared Preset.full (endEntity "Z" "String" :: associationModel []) entries' contents' g₁' ∧
    g₁.resolveAll.1.findProperty ⟨12⟩ "p" = .ok x ∧
    g₁'.resolveAll.1.findProperty ⟨13⟩ "p" = .ok x' ∧ x'.type.path = x.type.path ∧
    g₁'.resolveAll.1.allWiringFaults = [] := by
  have hm : (associationModel [endEntity "Z" "String"]).Perm
      (endEntity "Z" "String" :: associationModel []) := List.perm_append_singleton _ _
  obtain ⟨entries, contents, g₁, p⟩ := prepared_of_build
    (show build Preset.full false (associationModel [endEntity "Z" "String"]) = .ok _ from rfl)
  obtain ⟨entries', contents', g₁', p'⟩ := prepared_of_build
    (show build Preset.full false (endEntity "Z" "String" :: associationModel []) = .ok _ from rfl)
  -- There is one association only.
  have hone {name : String} {d b k : Handle} (hd : g₁.resolveAll.1.Gives name d k)
      (hb : g₁.resolveAll.1.Gives name b k) : b = d := by
    obtain rfl := p.graph_eq rfl
    have hd : d ∈ [(⟨14⟩ : Handle)] := hd.1
    have hb : b ∈ [(⟨14⟩ : Handle)] := hb.1
    exact (List.mem_singleton.mp hb).trans (List.mem_singleton.mp hd).symm
  have hsame : ∀ h h' name, g₁.resolveAll.1.LooksUp h name →
      g₁'.resolveAll.1.lookup (g₁.resolveAll.1.pathOf h) = some h' →
      g₁.resolveAll.1.SameDeclarer g₁'.resolveAll.1 name h h' :=
    fun _ _ _ _ hlookup => (p.reordered p' hm).sameDeclarer hone hlookup
  obtain ⟨hlookups, hwiring, -⟩ := findProperty_of_perm p p' hm rfl rfl
  obtain rfl := p.graph_eq rfl
  obtain rfl := p'.graph_eq rfl
  obtain ⟨h', hh', hfind⟩ := hlookups ⟨12⟩ _ _ ⟨rfl, rfl⟩ rfl
  obtain rfl : h' = ⟨13⟩ := (Option.some.inj hh').symm
  rcases hfind "p" with ⟨hnone, -⟩ | ⟨k, d, x, k', d', x', hfinds, hfinds', -, htype⟩
  · cases hnone
  refine ⟨_, _, _, _, _, _, x, x', p, p', hfinds.found, hfinds'.found,
    htype.elim And.right ?_, (hwiring hsame).mp rfl⟩
  rintro ⟨b, hne, -, hgives, hgives'⟩
  exact absurd (hone hgives hgives') hne

/-- The association that comes first decides what is found, and whether the wiring misses a class
mapping. -/
theorem first_association_decides : ∃ m m' entries contents g₁ entries' contents' g₁' x x',
    m.Perm m' ∧ Prepared Preset.full m entries contents g₁ ∧
      Prepared Preset.full m' entries' contents' g₁' ∧
      g₁.resolveAll.1.lookup ⟨"A"⟩ = some ⟨12⟩ ∧ g₁'.resolveAll.1.lookup ⟨"A"⟩ = some ⟨12⟩ ∧
      g₁.resolveAll.1.findProperty ⟨12⟩ "p" = .ok x ∧
      g₁'.resolveAll.1.findProperty ⟨12⟩ "p" = .ok x' ∧ x'.type.path ≠ x.type.path ∧
      g₁.resolveAll.1.allWiringFaults = [] ∧ g₁'.resolveAll.1.allWiringFaults ≠ [] := by
  have hm : (associationModel [endEntity "Z" "String", endEntity "Y" "A"]).Perm
      (associationModel [endEntity "Y" "A", endEntity "Z" "String"]) := .append_left _ (.swap _ _ _)
  have hb : build Preset.full false (associationModel [endEntity "Z" "String", endEntity "Y" "A"]) =
      .ok _ := rfl
  obtain ⟨entries, contents, g₁, p⟩ := prepared_of_build hb
  obtain ⟨entries', contents', g₁', p'⟩ := (prepared_or_rejects Preset.full
    (associationModel [endEntity "Y" "A", endEntity "Z" "String"])).resolve_right (by
      rintro ⟨phase, ds, hrejects⟩
      obtain ⟨ds', hrejects⟩ := hrejects.of_perm hm.symm
      rw [hrejects.build_eq] at hb
      cases hb)
  obtain rfl := p.graph_eq rfl
  obtain rfl := p'.graph_eq rfl
  exact ⟨_, _, _, _, _, _, _, _, _, _, hm, p, p', rfl, rfl, rfl, rfl, by decide, rfl,
    List.cons_ne_nil _ _⟩

end ModelGraph.Graph
