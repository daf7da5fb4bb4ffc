import ModelGraph.Proofs.Mirrors

namespace ModelGraph

/-- The property of an association that belongs to a class, if it has the name. -/
def Association.given (a : Association) (h : Handle) (name : String) : Option Property := do
  let property ← a.findProperty name
  let opposite ← a.opposite name
  if opposite.type.pointsTo h then some property else none

theorem Class.targets_rebind (μ : Path → Path) (φ : Handle → Handle) (c : Class) :
    (c.rebind (carry μ φ)).superTypes.filterMap Reference.target =
      (c.superTypes.filterMap Reference.target).map φ := by
  simp only [Class.rebind, List.filterMap_map, List.map_filterMap]
  rfl

namespace Graph

variable {g : Graph} {name : String}

theorem findSome?_filterMap {α β γ : Type} {f : α → Option β} {k : β → Option γ} (l : List α) :
    (l.filterMap f).findSome? k = l.findSome? fun a => (f a).bind k := by
  induction l with
  | nil => rfl
  | cons a l ih =>
    cases hf : f a with
    | none => simp [hf, ih]
    | some b => simp [hf, ih, List.findSome?_cons]

theorem associationProperty_eq (h : Handle) : g.associationProperty h name =
    (g.handles .association).findSome? fun k =>
      ((g.body? k).bind Body.association?).bind fun a => a.given h name := by
  rw [associationProperty, ofKind, findSome?_filterMap, handles, List.findSome?_map]
  refine congrArg (List.findSome? · _) (funext fun k => ?_)
  simp only [Function.comp_def, Option.bind_map, body?]
  cases g.element? k.2 with
  | none => rfl
  | some e =>
    simp only [Option.bind_some]
    cases e.body <;> rfl

def searchNext (g : Graph) (name : String) (fuel : Nat) (state : Option Property × List Handle)
    (superType : Handle) : Option Property × List Handle :=
  match state with
  | (some property, visited) => (some property, visited)
  | (none, visited) => g.searchProperty name fuel superType visited

section Search

variable {fuel : Nat} {h : Handle} {visited : List Handle}

theorem searchProperty_visited (hv : visited.contains h = true) :
    g.searchProperty name (fuel + 1) h visited = (none, visited) := by
  rw [searchProperty, if_pos hv]

theorem searchProperty_none (hv : ¬visited.contains h = true)
    (hc : (g.body? h).bind Body.class? = none) :
    g.searchProperty name (fuel + 1) h visited = (none, visited ++ [h]) := by
  rw [searchProperty, if_neg hv]
  cases hb : g.body? h with
  | none => rfl
  | some b =>
    rw [hb] at hc
    cases b with
    | «class» c => cases hc
    | _ => rfl

theorem body?_of_class? {c : Class} (hc : (g.body? h).bind Body.class? = some c) :
    g.body? h = some (.class c) := by
  obtain ⟨b, hb, hc⟩ := Option.bind_eq_some_iff.mp hc
  cases b with
  | «class» c' =>
    cases hc
    exact hb
  | _ => cases hc

theorem body?_of_association? {a : Association}
    (ha : (g.body? h).bind Body.association? = some a) : g.body? h = some (.association a) := by
  obtain ⟨b, hb, ha⟩ := Option.bind_eq_some_iff.mp ha
  cases b with
  | association a' =>
    cases ha
    exact hb
  | _ => cases ha

theorem searchProperty_own {c : Class} {p : Property} (hv : ¬visited.contains h = true)
    (hc : (g.body? h).bind Body.class? = some c) (hp : c.findProperty name = some p) :
    g.searchProperty name (fuel + 1) h visited = (some p, visited ++ [h]) := by
  rw [searchProperty, if_neg hv, body?_of_class? hc]
  simp only [hp]

def searchAll (g : Graph) (name : String) (fuel : Nat) (c : Class) (visited : List Handle) :
    Option Property × List Handle :=
  (c.superTypes.filterMap Reference.target).foldl (g.searchNext name fuel) (none, visited)

theorem searchProperty_inherited {c : Class} (hv : ¬visited.contains h = true)
    (hc : (g.body? h).bind Body.class? = some c) (hp : c.findProperty name = none) :
    g.searchProperty name (fuel + 1) h visited =
      ((g.searchAll name fuel c (visited ++ [h])).1.or (g.associationProperty h name),
        (g.searchAll name fuel c (visited ++ [h])).2) := by
  rw [searchProperty, if_neg hv, body?_of_class? hc]
  simp only [hp]
  split
  · next found seen hs =>
    have hall : g.searchAll name fuel c (visited ++ [h]) = (some found, seen) := hs
    rw [hall]
    rfl
  · next seen hs =>
    have hall : g.searchAll name fuel c (visited ++ [h]) = (none, seen) := hs
    rw [hall]
    rfl

end Search

theorem toOption_findProperty (h : Handle) : (g.findProperty h name).toOption =
    ((g.body? h).bind Body.class?).elim
      (((g.body? h).bind Body.association?).bind fun a => a.findProperty name)
      (fun _ => (g.searchProperty name g.fuel h []).1) := by
  rw [findProperty]
  cases g.body? h with
  | none => rfl
  | some b =>
    cases b with
    | «class» c =>
      change _ = (g.searchProperty name g.fuel h []).1
      cases (g.searchProperty name g.fuel h []).1 <;> rfl
    | association a =>
      change _ = a.findProperty name
      cases hp : a.findProperty name <;> simp only [hp] <;> rfl
    | _ => rfl

/-- What may be known of what is found in a mirror, by what is found in the graph. -/
structure Tells (f : Rebinding) (R : Option Property → Option Property → Prop) : Prop where
  none : R none none
  some : ∀ p, R (some p) (some (p.rebind f))
  isSome : ∀ {o o'}, R o o' → o'.isSome = o.isSome

theorem tells_isSome (f : Rebinding) : Tells f fun o o' => o'.isSome = o.isSome :=
  ⟨rfl, fun _ => rfl, id⟩

theorem tells_rebind (f : Rebinding) : Tells f fun o o' => o' = o.map (Property.rebind f) :=
  ⟨rfl, fun _ => rfl, fun h => by rw [h, Option.isSome_map]⟩

section Tells

variable {f : Rebinding} {R : Option Property → Option Property → Prop} (t : Tells f R)
include t

theorem Tells.eq_none {o : Option Property} (h : R .none o) : o = .none :=
  Option.isNone_iff_eq_none.mp (Option.isSome_eq_false_iff.mp (t.isSome h))

theorem Tells.exists_eq_some {p : Property} {o : Option Property} (h : R (.some p) o) :
    ∃ p', o = .some p' :=
  Option.isSome_iff_exists.mp (t.isSome h)

theorem Tells.or {o o' x x' : Option Property} (h : R o o') (hx : R x x') :
    R (o.or x) (o'.or x') := by
  cases o with
  | none =>
    rw [t.eq_none h]
    exact hx
  | some p =>
    obtain ⟨p', rfl⟩ := t.exists_eq_some h
    exact h

end Tells

/-- Two states of a search that have come equally far, in a graph and in its mirror. -/
def Follows (R : Option Property → Option Property → Prop) (φ : Handle → Handle)
    (s s' : Option Property × List Handle) : Prop :=
  R s.1 s'.1 ∧ s'.2 = s.2.map φ

theorem Follows.searchAll {R : Option Property → Option Property → Prop} {μ : Path → Path}
    {φ : Handle → Handle} {g g' : Graph} {fuel : Nat} (t : Tells (carry μ φ) R)
    (hsearch : ∀ h visited, Follows R φ (g.searchProperty name fuel h visited)
      (g'.searchProperty name fuel (φ h) (visited.map φ)))
    (c : Class) (visited : List Handle) :
    Follows R φ (g.searchAll name fuel c visited)
      (g'.searchAll name fuel (c.rebind (carry μ φ)) (visited.map φ)) := by
  have hnext : ∀ h s s', Follows R φ s s' →
      Follows R φ (g.searchNext name fuel s h) (g'.searchNext name fuel s' (φ h)) := by
    rintro h ⟨found, visited⟩ ⟨found', visited'⟩ ⟨hf, rfl⟩
    cases found with
    | some p =>
      obtain ⟨p', rfl⟩ := t.exists_eq_some hf
      exact ⟨hf, rfl⟩
    | none =>
      obtain rfl := t.eq_none hf
      exact hsearch h visited
  have hfold : ∀ (hs : List Handle) s s', Follows R φ s s' →
      Follows R φ (hs.foldl (g.searchNext name fuel) s)
        ((hs.map φ).foldl (g'.searchNext name fuel) s') := by
    intro hs
    induction hs with
    | nil => exact fun s s' hf => hf
    | cons h hs ih => exact fun s s' hf => ih _ _ (hnext h s s' hf)
  rw [Graph.searchAll, Graph.searchAll, c.targets_rebind]
  exact hfold _ _ _ ⟨t.none, rfl⟩

namespace Mirrors

variable {μ : Path → Path} {φ : Handle → Handle} {g g' : Graph} (m : Mirrors μ φ g g')
include m

theorem given (a : Association) (h : Handle) : (a.rebind (carry μ φ)).given (φ h) name =
    (a.given h name).map (Property.rebind (carry μ φ)) := by
  rw [Association.given, Association.given, a.findProperty_rebind, a.opposite_rebind]
  cases a.findProperty name with
  | none => rfl
  | some p =>
    cases a.opposite name with
    | none => rfl
    | some q =>
      change (if (carry μ φ _ q.type).pointsTo (φ h) = true then some (p.rebind (carry μ φ))
        else none) = (if q.type.pointsTo h = true then some p else none).map _
      rw [m.pointsTo]
      split <;> rfl

theorem given_at (k h : Handle) :
    (((g'.body? (φ k)).bind Body.association?).bind fun a => a.given (φ h) name) =
      (((g.body? k).bind Body.association?).bind fun a => a.given h name).map
        (Property.rebind (carry μ φ)) := by
  rw [m.view Body.association?_outline]
  simp only [Body.association?_rebind]
  cases g.body? k with
  | none => rfl
  | some b =>
    simp only [Option.bind_some]
    cases b.association? with
    | none => rfl
    | some a => exact m.given a h

theorem associationProperty_rebind
    (ho : g'.handles .association = (g.handles .association).map φ) (h : Handle) :
    g'.associationProperty (φ h) name =
      (g.associationProperty h name).map (Property.rebind (carry μ φ)) := by
  rw [associationProperty_eq, associationProperty_eq, ho]
  induction g.handles .association with
  | nil => rfl
  | cons k ks ih =>
    rw [List.map_cons, List.findSome?_cons, List.findSome?_cons, ih, m.given_at]
    cases ((g.body? k).bind Body.association?).bind fun a => a.given h name <;> rfl

section Rostered

variable (ro : g.Rostered) (ro' : g'.Rostered)
include ro ro'

theorem mem_handles (k : Kind) (h : Handle) : φ h ∈ g'.handles k ↔ h ∈ g.handles k := by
  rw [Graph.mem_handles ro, Graph.mem_handles ro']
  have hkind : ∀ {e e' : Element}, e'.body.outline = (e.body.rebind (carry μ φ)).outline →
      e'.kind = e.kind := fun ho => (Body.kind_of_outline ho).trans (Body.kind_rebind _ _)
  constructor
  · rintro ⟨e', hl', rfl⟩
    obtain ⟨h', e, heq, hl, ho⟩ := m.liveAt_back hl'
    rw [m.injective _ _ heq] at hl
    exact ⟨e, hl, (hkind ho).symm⟩
  · rintro ⟨e, hl, rfl⟩
    obtain ⟨e', hl', ho⟩ := m.liveAt hl
    exact ⟨e', hl', hkind ho⟩

theorem isSome_associationProperty (h : Handle) :
    (g'.associationProperty (φ h) name).isSome = (g.associationProperty h name).isSome := by
  rw [Bool.eq_iff_iff, associationProperty_eq, associationProperty_eq, List.findSome?_isSome_iff,
    List.findSome?_isSome_iff]
  constructor
  · rintro ⟨k', hk', hs⟩
    obtain ⟨k, rfl⟩ := m.surjective k'
    rw [m.given_at, Option.isSome_map] at hs
    exact ⟨k, (m.mem_handles ro ro' _ k).mp hk', hs⟩
  · rintro ⟨k, hk, hs⟩
    refine ⟨φ k, (m.mem_handles ro ro' _ k).mpr hk, ?_⟩
    rwa [m.given_at, Option.isSome_map]

end Rostered

section Search

variable {R : Option Property → Option Property → Prop} (t : Tells (carry μ φ) R)
  (ha : ∀ h, R (g.associationProperty h name) (g'.associationProperty (φ h) name))
include t ha

theorem searchProperty (fuel : Nat) (h : Handle) (visited : List Handle) :
    Follows R φ (g.searchProperty name fuel h visited)
      (g'.searchProperty name fuel (φ h) (visited.map φ)) := by
  induction fuel generalizing h visited with
  | zero => exact ⟨t.none, rfl⟩
  | succ fuel ih =>
    have hvisited := m.contains_map visited h
    have happend : visited.map φ ++ [φ h] = (visited ++ [h]).map φ := by
      rw [List.map_append]
      rfl
    have hclass : (g'.body? (φ h)).bind Body.class? =
        ((g.body? h).bind Body.class?).map (Class.rebind (carry μ φ)) := by
      rw [m.view Body.class?_outline, Option.map_bind]
      simp only [Body.class?_rebind, Function.comp_def]
    by_cases hv : visited.contains h = true
    · rw [searchProperty_visited hv, searchProperty_visited (hvisited.trans hv)]
      exact ⟨t.none, rfl⟩
    · have hv' : ¬(visited.map φ).contains (φ h) = true := hvisited ▸ hv
      cases hc : (g.body? h).bind Body.class? with
      | none =>
        rw [hc] at hclass
        rw [searchProperty_none hv hc, searchProperty_none hv' hclass, happend]
        exact ⟨t.none, rfl⟩
      | some c =>
        rw [hc] at hclass
        have hproperty := c.findProperty_rebind (carry μ φ) name
        cases hp : c.findProperty name with
        | some p =>
          rw [hp] at hproperty
          rw [searchProperty_own hv hc hp, searchProperty_own hv' hclass hproperty, happend]
          exact ⟨t.some p, rfl⟩
        | none =>
          rw [hp] at hproperty
          rw [searchProperty_inherited hv hc hp, searchProperty_inherited hv' hclass hproperty,
            happend]
          obtain ⟨hfound, hseen⟩ := Follows.searchAll t ih c (visited ++ [h])
          exact ⟨t.or hfound (ha h), hseen⟩

theorem toOption_findProperty (h : Handle) :
    R (g.findProperty h name).toOption (g'.findProperty (φ h) name).toOption := by
  have hclass := m.view Body.class?_outline h
  have hassociation := m.view Body.association?_outline h
  obtain ⟨hsearch, -⟩ := m.searchProperty t ha g.fuel h []
  rw [Graph.toOption_findProperty, Graph.toOption_findProperty, hclass, hassociation, m.fuel_eq]
  cases hb : g.body? h with
  | none => exact t.none
  | some b =>
    simp only [Option.bind_some, Body.class?_rebind, Body.association?_rebind]
    cases b with
    | «class» c => exact hsearch
    | association a =>
      change R (a.findProperty name) ((a.rebind (carry μ φ)).findProperty name)
      rw [Association.findProperty_rebind]
      cases a.findProperty name with
      | none => exact t.none
      | some q => exact t.some q
    | _ => exact t.none

theorem findProperty {h : Handle} {p : Property} (hp : g.findProperty h name = .ok p) :
    ∃ p', g'.findProperty (φ h) name = .ok p' ∧ R (some p) (some p') := by
  have hr := m.toOption_findProperty t ha h
  rw [hp] at hr
  obtain ⟨p', hp'⟩ := t.exists_eq_some hr
  rw [hp'] at hr
  cases hf : g'.findProperty (φ h) name with
  | error fault =>
    rw [hf] at hp'
    cases hp'
  | ok q =>
    rw [hf] at hp'
    obtain rfl := Option.some.inj hp'
    exact ⟨q, rfl, hr⟩

end Search

end Mirrors
end Graph

end ModelGraph
