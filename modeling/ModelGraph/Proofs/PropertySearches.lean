import ModelGraph.Proofs.AnchoredGraphs
import ModelGraph.Proofs.RenumberedLookups

namespace ModelGraph

namespace Association

variable {a : Association} {h : Handle} {name : String} {p q : Property}

/-- The first end is looked at first, the second one only where it has a name of its own. -/
theorem given_of_ends (ha : a.properties = [p, q]) : a.given h name =
    if p.name = name then if q.type.pointsTo h then some p else none
    else if q.name = name then if p.type.pointsTo h then some q else none
    else none := by
  rw [given, findProperty, opposite, ha]
  by_cases hp : p.name = name
  · simp [hp]
  · by_cases hq : q.name = name <;> simp [hp, hq]

/-- The ends that an association gives to a class: the first end to the class of the second, and the
second end to the class of the first, unless it has the name of the first. -/
theorem isSome_given_iff {P Q : Handle} (ha : a.properties = [p, q]) (hp : p.type.target = some P)
    (hq : q.type.target = some Q) : (a.given h name).isSome = true ↔
      (Q = h ∧ p.name = name) ∨ (P = h ∧ q.name = name ∧ p.name ≠ name) := by
  rw [given_of_ends ha, Reference.pointsTo, Reference.pointsTo, hp, hq]
  by_cases hfirst : p.name = name
  · simp [hfirst]
  · by_cases hsecond : q.name = name <;> simp [hfirst, hsecond]

end Association

namespace Graph

variable {g : Graph} {name : String} {h k : Handle} {fuel : Nat} {visited result : List Handle}

/-- A class has a super type that is bound to an element. -/
inductive Extends (g : Graph) (h k : Handle) : Prop
  | intro {c : Class} {r : Reference .class} : g.body? h = some (.class c) → r ∈ c.superTypes →
      r.target = some k → Extends g h k

/-- A class itself, or what it extends, directly or by others. -/
def SubtypeOf (g : Graph) : Handle → Handle → Prop := Relation.ReflTransGen g.Extends

/-- The property that a class has without its super types. -/
def supply (g : Graph) (name : String) (h : Handle) : Option Property :=
  ((g.body? h).bind Body.class?).bind fun c =>
    (c.findProperty name).or (g.associationProperty h name)

theorem supply_of_class {c : Class} (hc : (g.body? h).bind Body.class? = some c) :
    g.supply name h = (c.findProperty name).or (g.associationProperty h name) := by
  rw [supply, hc, Option.bind_some]

theorem supply_of_no_class (hc : (g.body? h).bind Body.class? = none) : g.supply name h = none := by
  rw [supply, hc, Option.bind_none]

theorem class?_of_body? {c : Class} (hb : g.body? h = some (.class c)) :
    (g.body? h).bind Body.class? = some c := by
  rw [hb]
  rfl

theorem extends_iff {c : Class} (hc : (g.body? h).bind Body.class? = some c) :
    g.Extends h k ↔ k ∈ c.superTypes.filterMap Reference.target := by
  rw [List.mem_filterMap]
  constructor
  · rintro ⟨hb, hr, ht⟩
    rw [class?_of_body? hb] at hc
    cases hc
    exact ⟨_, hr, ht⟩
  · rintro ⟨r, hr, ht⟩
    exact .intro (body?_of_class? hc) hr ht

theorem not_extends (hc : (g.body? h).bind Body.class? = none) : ¬g.Extends h k := by
  rintro ⟨hb, -, -⟩
  rw [class?_of_body? hb] at hc
  cases hc

/-- The class that supplies a property: the first one, depth first, that declares one of the name,
or is given one where the classes that it extends supply none. -/
def searchEnd (g : Graph) (name : String) :
    (fuel : Nat) → Handle → List Handle → Option Handle × List Handle
  | 0, _, visited => (none, visited)
  | fuel + 1, h, visited =>
    if visited.contains h then (none, visited)
    else
      match (g.body? h).bind Body.class? with
      | none => (none, visited ++ [h])
      | some c =>
        if (c.findProperty name).isSome then (some h, visited ++ [h])
        else
          let inherited := (c.superTypes.filterMap Reference.target).foldl
            (fun state superType =>
              match state with
              | (some k, visited) => (some k, visited)
              | (none, visited) => searchEnd g name fuel superType visited)
            (none, visited ++ [h])
          (inherited.1.or (if (g.associationProperty h name).isSome then some h else none),
            inherited.2)

def endOf? (g : Graph) (h : Handle) (name : String) : Option Handle :=
  (g.searchEnd name g.fuel h []).1

def endNext (g : Graph) (name : String) (fuel : Nat) (state : Option Handle × List Handle)
    (superType : Handle) : Option Handle × List Handle :=
  match state with
  | (some k, visited) => (some k, visited)
  | (none, visited) => g.searchEnd name fuel superType visited

def endAll (g : Graph) (name : String) (fuel : Nat) (c : Class) (visited : List Handle) :
    Option Handle × List Handle :=
  (c.superTypes.filterMap Reference.target).foldl (g.endNext name fuel) (none, visited)

theorem searchEnd_visited (hv : visited.contains h = true) :
    g.searchEnd name (fuel + 1) h visited = (none, visited) := by
  rw [searchEnd, if_pos hv]

theorem searchEnd_none (hv : ¬visited.contains h = true)
    (hc : (g.body? h).bind Body.class? = none) :
    g.searchEnd name (fuel + 1) h visited = (none, visited ++ [h]) := by
  rw [searchEnd, if_neg hv, hc]

theorem searchEnd_own {c : Class} {p : Property} (hv : ¬visited.contains h = true)
    (hc : (g.body? h).bind Body.class? = some c) (hp : c.findProperty name = some p) :
    g.searchEnd name (fuel + 1) h visited = (some h, visited ++ [h]) := by
  rw [searchEnd, if_neg hv, hc]
  simp only [hp, Option.isSome_some, if_true]

theorem searchEnd_inherited {c : Class} (hv : ¬visited.contains h = true)
    (hc : (g.body? h).bind Body.class? = some c) (hp : c.findProperty name = none) :
    g.searchEnd name (fuel + 1) h visited =
      ((g.endAll name fuel c (visited ++ [h])).1.or
        (if (g.associationProperty h name).isSome then some h else none),
        (g.endAll name fuel c (visited ++ [h])).2) := by
  rw [searchEnd, if_neg hv, hc]
  simp only [hp, Option.isSome_none, Bool.false_eq_true, if_false]
  rfl

theorem foldl_endNext_some (l : Handle) (ks : List Handle) :
    ks.foldl (g.endNext name fuel) (some l, visited) = (some l, visited) := by
  induction ks with
  | nil => rfl
  | cons k ks ih => exact ih

theorem exists_of_foldl_endNext {ss : List Handle}
    (hk : (ss.foldl (g.endNext name fuel) (none, visited)).1 = some k) :
    ∃ s ∈ ss, ∃ seen, (g.searchEnd name fuel s seen).1 = some k := by
  induction ss generalizing visited with
  | nil => cases hk
  | cons s ss ih =>
    rw [List.foldl_cons, endNext] at hk
    obtain ⟨last, seen, hs⟩ : ∃ last seen, g.searchEnd name fuel s visited = (last, seen) :=
      ⟨_, _, rfl⟩
    rw [hs] at hk
    cases last with
    | some l =>
      rw [foldl_endNext_some] at hk
      exact ⟨s, List.mem_cons_self, visited, (congrArg Prod.fst hs).trans hk⟩
    | none =>
      obtain ⟨s', hs', hend⟩ := ih hk
      exact ⟨s', List.mem_cons_of_mem s hs', hend⟩

theorem subtypeOf_searchEnd (hk : (g.searchEnd name fuel h visited).1 = some k) :
    g.SubtypeOf h k := by
  induction fuel generalizing h visited with
  | zero => cases hk
  | succ fuel ih =>
    by_cases hv : visited.contains h = true
    · rw [searchEnd_visited hv] at hk
      cases hk
    cases hc : (g.body? h).bind Body.class? with
    | none =>
      rw [searchEnd_none hv hc] at hk
      cases hk
    | some c =>
      cases ho : c.findProperty name with
      | some p =>
        rw [searchEnd_own hv hc ho] at hk
        cases hk
        exact .refl
      | none =>
        rw [searchEnd_inherited hv hc ho] at hk
        rcases Option.or_eq_some_iff.mp hk with hinherited | ⟨-, hgiven⟩
        · obtain ⟨s, hs, seen, hend⟩ := exists_of_foldl_endNext hinherited
          exact .head ((extends_iff hc).mpr hs) (ih hend)
        · obtain ⟨-, hkh⟩ := Option.ite_none_right_eq_some.mp hgiven
          cases hkh
          exact .refl

/-- A search for a property and one for its end that have come equally far. -/
structure Ends (g : Graph) (name : String) (s : Option Property × List Handle)
    (t : Option Handle × List Handle) : Prop where
  seen : s.2 = t.2
  found : s.1 = t.1.bind (g.supply name)
  isSome : s.1.isSome = t.1.isSome

theorem Ends.start (visited : List Handle) : g.Ends name (none, visited) (none, visited) :=
  ⟨rfl, rfl, rfl⟩

theorem Ends.foldl {s : Option Property × List Handle} {t : Option Handle × List Handle}
    (hsearch : ∀ k seen,
      g.Ends name (g.searchProperty name fuel k seen) (g.searchEnd name fuel k seen))
    (e : g.Ends name s t) (ks : List Handle) :
    g.Ends name (ks.foldl (g.searchNext name fuel) s) (ks.foldl (g.endNext name fuel) t) := by
  induction ks generalizing s t with
  | nil => exact e
  | cons k ks ih =>
    refine ih ?_
    obtain ⟨found, seen⟩ := s
    obtain ⟨last, seen'⟩ := t
    obtain ⟨rfl, hfound, hsome⟩ := e
    cases last with
    | none =>
      cases hfound
      exact hsearch k seen
    | some l =>
      obtain ⟨p, rfl⟩ := Option.isSome_iff_exists.mp hsome
      exact ⟨rfl, hfound, hsome⟩

theorem Ends.or {c : Class} {s : Option Property × List Handle} {t : Option Handle × List Handle}
    (e : g.Ends name s t) (hc : (g.body? h).bind Body.class? = some c)
    (hp : c.findProperty name = none) :
    g.Ends name (s.1.or (g.associationProperty h name), s.2)
      (t.1.or (if (g.associationProperty h name).isSome then some h else none), t.2) := by
  obtain ⟨found, seen⟩ := s
  obtain ⟨last, seen'⟩ := t
  obtain ⟨rfl, hfound, hsome⟩ := e
  have hsupply : g.supply name h = g.associationProperty h name := by
    rw [supply_of_class hc, hp, Option.none_or]
  cases last with
  | none =>
    cases hfound
    cases ha : g.associationProperty h name with
    | none => exact .start seen
    | some p => exact ⟨rfl, (hsupply.trans ha).symm, rfl⟩
  | some k =>
    obtain ⟨p, rfl⟩ := Option.isSome_iff_exists.mp hsome
    exact ⟨rfl, hfound, rfl⟩

theorem ends_searchProperty (fuel : Nat) (h : Handle) (visited : List Handle) :
    g.Ends name (g.searchProperty name fuel h visited) (g.searchEnd name fuel h visited) := by
  induction fuel generalizing h visited with
  | zero => exact .start visited
  | succ fuel ih =>
    by_cases hv : visited.contains h = true
    · rw [searchProperty_visited hv, searchEnd_visited hv]
      exact .start visited
    cases hc : (g.body? h).bind Body.class? with
    | none =>
      rw [searchProperty_none hv hc, searchEnd_none hv hc]
      exact .start _
    | some c =>
      cases ho : c.findProperty name with
      | some p =>
        rw [searchProperty_own hv hc ho, searchEnd_own hv hc ho]
        exact ⟨rfl, by rw [Option.bind_some, supply_of_class hc, ho]; rfl, rfl⟩
      | none =>
        rw [searchProperty_inherited hv hc ho, searchEnd_inherited hv hc ho]
        exact ((Ends.start (visited ++ [h])).foldl ih _).or hc ho

theorem supply_of_searchProperty {p : Property}
    (hp : (g.searchProperty name fuel h visited).1 = some p) :
    ∃ k, g.SubtypeOf h k ∧ g.supply name k = some p := by
  rw [(ends_searchProperty fuel h visited).found] at hp
  obtain ⟨k, hk, hs⟩ := Option.bind_eq_some_iff.mp hp
  exact ⟨k, subtypeOf_searchEnd hk, hs⟩

theorem foldl_searchNext_some (p : Property) (ks : List Handle) :
    ks.foldl (g.searchNext name fuel) (some p, visited) = (some p, visited) := by
  induction ks with
  | nil => rfl
  | cons k ks ih => exact ih

/-- A search that has found nothing: each class that it came to supplies nothing, and the search has
been to all that the class extends. -/
structure Fruitless (g : Graph) (name : String) (visited result : List Handle) : Prop where
  kept : visited ⊆ result
  supply : ∀ k ∈ result, k ∉ visited → g.supply name k = none
  closed : ∀ k ∈ result, k ∉ visited → ∀ n, g.Extends k n → n ∈ result

namespace Fruitless

theorem refl (g : Graph) (name : String) (visited : List Handle) :
    g.Fruitless name visited visited :=
  ⟨List.Subset.refl _, fun _ hk hn => absurd hk hn, fun _ hk hn => absurd hk hn⟩

theorem trans {middle : List Handle} (f : g.Fruitless name visited middle)
    (f' : g.Fruitless name middle result) : g.Fruitless name visited result where
  kept := List.Subset.trans f.kept f'.kept
  supply k hk hn := by
    by_cases hm : k ∈ middle
    · exact f.supply k hm hn
    · exact f'.supply k hk hm
  closed k hk hn n he := by
    by_cases hm : k ∈ middle
    · exact f'.kept (f.closed k hm hn n he)
    · exact f'.closed k hk hm n he

theorem cons (f : g.Fruitless name (visited ++ [h]) result) (hs : g.supply name h = none)
    (he : ∀ n, g.Extends h n → n ∈ result) : g.Fruitless name visited result where
  kept := (List.append_subset.mp f.kept).1
  supply k hk hn := by
    by_cases hkh : k = h
    · exact hkh ▸ hs
    · exact f.supply k hk (by simp [hn, hkh])
  closed k hk hn := by
    by_cases hkh : k = h
    · exact hkh ▸ he
    · exact f.closed k hk (by simp [hn, hkh])

theorem supply_of_subtypeOf (f : g.Fruitless name [] result) (hh : h ∈ result)
    (hi : g.SubtypeOf h k) : g.supply name k = none := by
  have hk : k ∈ result := by
    induction hi with
    | refl => exact hh
    | tail _ he ih => exact f.closed _ ih List.not_mem_nil _ he
  exact f.supply k hk List.not_mem_nil

theorem foldl {ks : List Handle}
    (hsearch : ∀ k seen, visited ⊆ seen → (g.searchProperty name fuel k seen).1 = none →
      g.Fruitless name seen (g.searchProperty name fuel k seen).2 ∧
        k ∈ (g.searchProperty name fuel k seen).2)
    (hn : (ks.foldl (g.searchNext name fuel) (none, visited)).1 = none) :
    g.Fruitless name visited (ks.foldl (g.searchNext name fuel) (none, visited)).2 ∧
      ∀ k ∈ ks, k ∈ (ks.foldl (g.searchNext name fuel) (none, visited)).2 := by
  induction ks generalizing visited with
  | nil => exact ⟨refl g name visited, List.forall_mem_nil _⟩
  | cons k ks ih =>
    rw [List.foldl_cons, searchNext] at hn ⊢
    obtain ⟨found, seen, hs⟩ : ∃ found seen, g.searchProperty name fuel k visited = (found, seen) :=
      ⟨_, _, rfl⟩
    rw [hs] at hn ⊢
    cases found with
    | some q =>
      rw [foldl_searchNext_some] at hn
      cases hn
    | none =>
      obtain ⟨hfirst, hk⟩ := hsearch k visited (List.Subset.refl _) (congrArg Prod.fst hs)
      rw [hs] at hfirst hk
      obtain ⟨hrest, hks⟩ := ih
        (fun k seen' hsub => hsearch k seen' (List.Subset.trans hfirst.kept hsub)) hn
      exact ⟨hfirst.trans hrest, List.forall_mem_cons.mpr ⟨hrest.kept hk, hks⟩⟩

end Fruitless

/-- With fuel for all elements that have not been visited, a search that finds nothing has passed
over nothing. -/
theorem fruitless_searchProperty (hf : g.unvisited visited < fuel)
    (hn : (g.searchProperty name fuel h visited).1 = none) :
    g.Fruitless name visited (g.searchProperty name fuel h visited).2 ∧
      h ∈ (g.searchProperty name fuel h visited).2 := by
  induction fuel generalizing h visited with
  | zero => exact absurd hf (Nat.not_lt_zero _)
  | succ fuel ih =>
    by_cases hv : visited.contains h = true
    · rw [searchProperty_visited hv]
      exact ⟨.refl g name visited, by simpa using hv⟩
    have hmem : h ∈ visited ++ [h] := List.mem_append_right _ (List.mem_singleton_self h)
    cases hc : (g.body? h).bind Body.class? with
    | none =>
      rw [searchProperty_none hv hc]
      have hnone := (Fruitless.refl g name (visited ++ [h])).cons (supply_of_no_class hc)
        fun n he => absurd he (not_extends hc)
      exact ⟨hnone, hmem⟩
    | some c =>
      cases ho : c.findProperty name with
      | some p =>
        rw [searchProperty_own hv hc ho] at hn
        cases hn
      | none =>
        rw [searchProperty_inherited hv hc ho] at hn ⊢
        obtain ⟨hinherited, hgiven⟩ := Option.or_eq_none_iff.mp hn
        have hless : g.unvisited (visited ++ [h]) < fuel := by
          obtain ⟨e, he, -⟩ := Option.map_eq_some_iff.mp (body?_of_class? hc)
          have := unvisited_append_lt (slot_lt_of_element? he) (by simpa using hv)
          omega
        obtain ⟨hall, htargets⟩ := Fruitless.foldl
          (fun k seen hsub hk => ih ((unvisited_anti hsub).trans_lt hless) hk) hinherited
        have hsupply : g.supply name h = none := by
          rw [supply_of_class hc, ho, Option.none_or, hgiven]
        exact ⟨hall.cons hsupply fun n he => htargets n ((extends_iff hc).mp he), hall.kept hmem⟩

theorem searchProperty_eq {fuel' : Nat} (hf : g.unvisited visited < fuel)
    (hf' : g.unvisited visited < fuel') :
    g.searchProperty name fuel h visited = g.searchProperty name fuel' h visited := by
  induction fuel generalizing fuel' h visited with
  | zero => exact absurd hf (Nat.not_lt_zero _)
  | succ fuel ih =>
    obtain _ | fuel' := fuel'
    · exact absurd hf' (Nat.not_lt_zero _)
    by_cases hv : visited.contains h = true
    · rw [searchProperty_visited hv, searchProperty_visited hv]
    cases hc : (g.body? h).bind Body.class? with
    | none => rw [searchProperty_none hv hc, searchProperty_none hv hc]
    | some c =>
      cases ho : c.findProperty name with
      | some p => rw [searchProperty_own hv hc ho, searchProperty_own hv hc ho]
      | none =>
        have hless : g.unvisited (visited ++ [h]) < g.unvisited visited := by
          obtain ⟨e, he, -⟩ := Option.map_eq_some_iff.mp (body?_of_class? hc)
          exact unvisited_append_lt (slot_lt_of_element? he) (by simpa using hv)
        have hall : g.searchAll name fuel c (visited ++ [h]) =
            g.searchAll name fuel' c (visited ++ [h]) := by
          refine (List.foldl_rel (r := fun (s s' : Option Property × List Handle) =>
            s = s' ∧ g.unvisited s.2 < g.unvisited visited) (a := (none, visited ++ [h]))
            ⟨rfl, hless⟩ ?_).1
          rintro superType - ⟨found, seen⟩ _ ⟨rfl, hlt⟩
          cases found with
          | some p => exact ⟨rfl, hlt⟩
          | none =>
            have hseen : g.unvisited seen < g.unvisited visited := hlt
            have hsubset := g.subset_searchProperty name fuel superType seen
            exact ⟨ih (by omega) (by omega), Nat.lt_of_le_of_lt (unvisited_anti hsubset) hlt⟩
        rw [searchProperty_inherited hv hc ho, searchProperty_inherited hv hc ho, hall]

theorem findProperty_of_class {c : Class} (hb : g.body? h = some (.class c)) :
    g.findProperty h name = ((g.searchProperty name g.fuel h []).1.elim
      (.error (.propertyNotFound (g.pathOf h) name)) .ok) := by
  rw [findProperty, hb]
  cases (g.searchProperty name g.fuel h []).1 <;> rfl

theorem findProperty_eq_ok {c : Class} (hb : g.body? h = some (.class c)) {p : Property} :
    g.findProperty h name = .ok p ↔ (g.searchProperty name g.fuel h []).1 = some p := by
  rw [findProperty_of_class hb]
  cases (g.searchProperty name g.fuel h []).1 <;> simp

theorem exists_findProperty_iff {c : Class} (hb : g.body? h = some (.class c)) :
    (∃ p, g.findProperty h name = .ok p) ↔
      ∃ k, g.SubtypeOf h k ∧ (g.supply name k).isSome = true := by
  constructor
  · rintro ⟨p, hp⟩
    obtain ⟨k, hk, hs⟩ := supply_of_searchProperty ((findProperty_eq_ok hb).mp hp)
    exact ⟨k, hk, Option.isSome_of_eq_some hs⟩
  · rintro ⟨k, hk, hs⟩
    cases hn : (g.searchProperty name g.fuel h []).1 with
    | some p => exact ⟨p, (findProperty_eq_ok hb).mpr hn⟩
    | none =>
      obtain ⟨hf, hh⟩ := fruitless_searchProperty (g.unvisited_lt_fuel []) hn
      rw [hf.supply_of_subtypeOf hh hk] at hs
      cases hs

theorem isSome_associationProperty {a : Association} (hk : k ∈ g.handles .association)
    (ha : g.body? k = some (.association a)) (hs : (a.given h name).isSome = true) :
    (g.associationProperty h name).isSome = true := by
  rw [associationProperty_eq, List.findSome?_isSome_iff]
  refine ⟨k, hk, ?_⟩
  rw [ha]
  exact hs

theorem isSome_supply_iff : (g.supply name h).isSome = true ↔ ∃ c, g.body? h = some (.class c) ∧
    ((∃ p ∈ c.properties, p.name = name) ∨ ∃ p, g.associationProperty h name = some p) := by
  have hown (c : Class) :
      (c.findProperty name).isSome = true ↔ ∃ p ∈ c.properties, p.name = name := by
    simp [Class.findProperty]
  constructor
  · intro hs
    obtain ⟨p, hp⟩ := Option.isSome_iff_exists.mp hs
    obtain ⟨c, hc, hp⟩ := Option.bind_eq_some_iff.mp hp
    refine ⟨c, body?_of_class? hc, ?_⟩
    exact (Option.or_eq_some_iff.mp hp).imp
      (fun ho => (hown c).mp (Option.isSome_of_eq_some ho)) fun ha => ⟨p, ha.2⟩
  · rintro ⟨c, hb, hs⟩
    rw [supply_of_class (class?_of_body? hb), Option.isSome_or, Bool.or_eq_true, hown,
      Option.isSome_iff_exists]
    exact hs

theorem exists_findProperty_of_given (ro : g.Rostered) {c : Class}
    (hb : g.body? h = some (.class c)) {e : Element} (hl : g.LiveAt k e) {a : Association}
    (he : e.body = .association a) (hs : (a.given h name).isSome = true) :
    ∃ p, g.findProperty h name = .ok p := by
  have hk : k ∈ g.handles .association := (mem_handles ro).mpr ⟨e, hl, congrArg Body.kind he⟩
  have ha : g.body? k = some (.association a) := by rw [body?, hl.1, Option.map_some, he]
  refine (exists_findProperty_iff hb).mpr ⟨h, .refl, isSome_supply_iff.mpr ⟨c, hb, .inr ?_⟩⟩
  exact Option.isSome_iff_exists.mp (isSome_associationProperty hk ha hs)

/-- The ends of an association with two properties, which are of two classes: the class that the
second end is of finds a property with the name of the first end, and the class that the first end
is of finds one with the name of the second end, where the ends differ in name or are of the same
class. To any other class, and under any other name, the association gives nothing. -/
theorem ends_navigable (ro : g.Rostered) {e : Element} (hl : g.LiveAt k e) {a : Association}
    (he : e.body = .association a) {p q : Property} (ha : a.properties = [p, q]) {P Q : Handle}
    (hp : p.type.target = some P) (hq : q.type.target = some Q) {c d : Class}
    (hP : g.body? P = some (.class c)) (hQ : g.body? Q = some (.class d)) :
    (∃ x, g.findProperty Q p.name = .ok x) ∧
      (p.name ≠ q.name ∨ P = Q → ∃ x, g.findProperty P q.name = .ok x) ∧
      ∀ h name, (a.given h name).isSome = true ↔
        (Q = h ∧ p.name = name) ∨ (P = h ∧ q.name = name ∧ p.name ≠ name) := by
  have hgiven (h : Handle) (name : String) : (a.given h name).isSome = true ↔
      (Q = h ∧ p.name = name) ∨ (P = h ∧ q.name = name ∧ p.name ≠ name) :=
    a.isSome_given_iff ha hp hq
  refine ⟨?_, fun hdiffer => ?_, hgiven⟩
  · exact exists_findProperty_of_given ro hQ hl he ((hgiven Q p.name).mpr (.inl ⟨rfl, rfl⟩))
  · refine exists_findProperty_of_given ro hP hl he ((hgiven P q.name).mpr ?_)
    by_cases hname : p.name = q.name
    · exact .inl ⟨(hdiffer.resolve_left (not_not_intro hname)).symm, hname⟩
    · exact .inr ⟨rfl, rfl, hname⟩

def endsGraph (first second : String) : Graph :=
  Change.resolve.run
    ((Change.create ⟨"A"⟩ (.association {
        properties := [{ name := first, multiplicity := .one, type := .ofText "P" },
          { name := second, multiplicity := .one, type := .ofText "Q" }] })).run
      ((Change.create ⟨"Q"⟩ (.class {})).run
        ((Change.create ⟨"P"⟩ (.class {})).run (new Preset.full))))

theorem kept_endsGraph (first second : String) : Kept Preset.full (endsGraph first second) :=
  (((Kept.new.create ⟨"P"⟩ rfl (by decide)).create ⟨"Q"⟩ rfl (by decide)).create ⟨"A"⟩ rfl
    (by simp [Body.links, Association.links, Property.links, Annotations.links, Reference.link,
      Reference.ofText])).change (c := .resolve) trivial trivial trivial

theorem ends_navigable_differing : (∃ x, (endsGraph "x" "y").findProperty ⟨13⟩ "x" = .ok x) ∧
    ∃ x, (endsGraph "x" "y").findProperty ⟨12⟩ "y" = .ok x := by
  have ro := (kept_endsGraph "x" "y").rostered (keepsKinds_presets Preset.registry_all)
  obtain ⟨hfirst, hsecond, -⟩ := ends_navigable (k := ⟨14⟩) ro ⟨rfl, rfl⟩ rfl rfl rfl rfl rfl rfl
  exact ⟨hfirst, hsecond (.inl (by decide))⟩

/-- Where both ends have one name, the class that the first end is of does not find the second. -/
theorem end_not_navigable : ∃ e a p q c d, (endsGraph "x" "x").LiveAt ⟨14⟩ e ∧
    e.body = .association a ∧ a.properties = [p, q] ∧ p.type.target = some ⟨12⟩ ∧
    q.type.target = some ⟨13⟩ ∧ (endsGraph "x" "x").body? ⟨12⟩ = some (.class c) ∧
    (endsGraph "x" "x").body? ⟨13⟩ = some (.class d) ∧ q.name = "x" ∧
    (endsGraph "x" "x").findProperty ⟨12⟩ "x" = .error (.propertyNotFound ⟨"P"⟩ "x") :=
  ⟨_, _, _, _, _, _, ⟨rfl, rfl⟩, rfl, rfl, rfl, rfl, rfl, rfl, rfl, rfl⟩

end Graph
end ModelGraph
