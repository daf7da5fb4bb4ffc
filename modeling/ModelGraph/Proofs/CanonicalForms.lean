import ModelGraph.Json.Canonical
import ModelGraph.Proofs.Records

namespace ModelGraph

open Record

namespace Json

/-- The members that hold a document for which an empty array may stand. -/
def documentMembers : List String := ["aggregateSpecification", "runtime", "runtimeValue"]

def standsEmpty (key : String) : Json → Bool
  | .arr [] => documentMembers.contains key
  | _ => false

def namesNull : Json → Bool
  | .obj [(_, .null)] => true
  | _ => false

mutual

/-- Nothing is null or an empty array but what may be left out: each member of an object is named once,
no item of a list is null, no member that holds a document is an empty array, and within the value
there is no object that names null, at every depth. -/
def isRegular : Json → Bool
  | .arr items => regularItems items
  | .obj members => decide (members.map Prod.fst).Nodup && regularMembers members
  | .null => true
  | .bool _ => true
  | .num _ => true
  | .str _ => true

def regularItems : List Json → Bool
  | [] => true
  | j :: rest => !j.isNull && !j.namesNull && j.isRegular && regularItems rest

def regularMembers : List (String × Json) → Bool
  | [] => true
  | (k, v) :: rest => !standsEmpty k v && !v.namesNull && v.isRegular && regularMembers rest

end

def IsCanonical (j : Json) : Prop := j.canonical = j

/-- The value is canonical, and is there where it stands at a member. -/
structure IsStated (j : Json) : Prop where
  canonical : j.IsCanonical
  isAbsent : j.isAbsent = false

/-- The value is canonical, and is found where it stands at a member that is null when it is not
there. -/
structure IsStable (j : Json) : Prop where
  canonical : j.IsCanonical
  ne_nil : j ≠ .arr []

variable {j : Json} {items : List Json} {members : List (String × Json)} {n : Nat} {k : String}

/-- An item as it may stand in a list. -/
structure IsRegularItem (j : Json) : Prop where
  isNull : j.isNull = false
  namesNull : j.namesNull = false
  isRegular : j.isRegular = true

/-- A member as it may stand in an object. -/
structure IsRegularMember (m : String × Json) : Prop where
  standsEmpty : standsEmpty m.1 m.2 = false
  namesNull : m.2.namesNull = false
  isRegular : m.2.isRegular = true

theorem isRegular_arr : (Json.arr items).isRegular = true ↔ ∀ j ∈ items, j.IsRegularItem := by
  rw [isRegular]
  induction items with
  | nil => simp [regularItems]
  | cons j items ih =>
    rw [regularItems, Bool.and_eq_true, ih, List.forall_mem_cons]
    simp only [Bool.and_eq_true, Bool.not_eq_true', and_assoc]
    constructor
    · rintro ⟨hn, hc, hr, hrest⟩
      exact ⟨⟨hn, hc, hr⟩, hrest⟩
    · rintro ⟨⟨hn, hc, hr⟩, hrest⟩
      exact ⟨hn, hc, hr, hrest⟩

theorem isRegular_obj : (Json.obj members).isRegular = true ↔
    (members.map Prod.fst).Nodup ∧ ∀ m ∈ members, IsRegularMember m := by
  rw [isRegular, Bool.and_eq_true, decide_eq_true_eq]
  apply and_congr_right
  intro hn
  clear hn
  induction members with
  | nil => simp [regularMembers]
  | cons m members ih =>
    obtain ⟨k, v⟩ := m
    rw [regularMembers, Bool.and_eq_true, ih, List.forall_mem_cons]
    simp only [Bool.and_eq_true, Bool.not_eq_true', and_assoc]
    constructor
    · rintro ⟨hs, hc, hr, hrest⟩
      exact ⟨⟨hs, hc, hr⟩, hrest⟩
    · rintro ⟨⟨hs, hc, hr⟩, hrest⟩
      exact ⟨hs, hc, hr, hrest⟩

theorem isRegular_filter {p : String × Json → Bool} (h : (Json.obj members).isRegular = true) :
    (Json.obj (members.filter p)).isRegular = true := by
  obtain ⟨hn, hr⟩ := isRegular_obj.mp h
  refine isRegular_obj.mpr ⟨hn.sublist ((List.filter_sublist).map _), ?_⟩
  intro m hm
  exact hr m (List.mem_filter.mp hm).1

theorem canonical_arr_of_there (h : ∀ i ∈ items, i.isNull = false) :
    (Json.arr items).canonical = .arr (items.map canonical) := by
  rw [canonical]
  induction items with
  | nil => rfl
  | cons j items ih =>
    have hrest := ih fun i hi => h i (List.mem_cons_of_mem j hi)
    rw [canonicalItems, h j List.mem_cons_self, if_neg Bool.false_ne_true, List.map_cons]
    exact congrArg (fun rest => Json.arr (j.canonical :: rest)) (Json.arr.inj hrest)

theorem canonical_arr (h : (Json.arr items).isRegular = true) :
    (Json.arr items).canonical = .arr (items.map canonical) :=
  canonical_arr_of_there fun i hi => (isRegular_arr.mp h i hi).isNull

theorem isAbsent_canonical (h : j.isRegular = true) : j.canonical.isAbsent = j.isAbsent := by
  cases j with
  | arr items =>
    rw [canonical_arr h]
    cases items <;> rfl
  | _ => rfl

theorem isNull_canonical (j : Json) : j.canonical.isNull = j.isNull := by
  cases j <;> rfl

theorem text?_canonical (j : Json) : j.canonical.text? = j.text? := by
  cases j <;> rfl

theorem isObject_canonical (j : Json) : j.canonical.isObject = j.isObject := by
  cases j <;> rfl

theorem mem_canonicalMembers {m : String × Json} (h : m ∈ canonicalMembers members) :
    ∃ v, (m.1, v) ∈ members ∧ m.2 = v.canonical := by
  induction members with
  | nil => exact absurd h List.not_mem_nil
  | cons a members ih =>
    obtain ⟨k, v⟩ := a
    have hrest : m ∈ canonicalMembers members →
        ∃ w, (m.1, w) ∈ (k, v) :: members ∧ m.2 = w.canonical := by
      intro h
      obtain ⟨w, hw, he⟩ := ih h
      exact ⟨w, List.mem_cons_of_mem _ hw, he⟩
    rw [canonicalMembers] at h
    split at h
    · exact hrest h
    · cases List.mem_cons.mp h with
      | inl he => exact ⟨v, by rw [he]; exact List.mem_cons_self, by rw [he]⟩
      | inr h => exact hrest h

theorem filter_canonicalMembers (p : String → Bool) (members : List (String × Json)) :
    (canonicalMembers members).filter (fun m => p m.1) =
      canonicalMembers (members.filter fun m => p m.1) := by
  induction members with
  | nil => rfl
  | cons m members ih =>
    obtain ⟨k, v⟩ := m
    rw [canonicalMembers]
    by_cases hp : p k
    · rw [List.filter_cons_of_pos (by exact hp), canonicalMembers]
      split
      · exact ih
      · rw [List.filter_cons_of_pos (by exact hp), ih]
    · rw [List.filter_cons_of_neg (by exact hp)]
      split
      · exact ih
      · rw [List.filter_cons_of_neg (by exact hp), ih]

theorem length_canonicalMembers_le (members : List (String × Json)) :
    (canonicalMembers members).length ≤ members.length := by
  induction members with
  | nil => exact Nat.le_refl 0
  | cons m members ih =>
    rw [canonicalMembers, List.length_cons]
    split
    · exact Nat.le_succ_of_le ih
    · exact Nat.succ_le_succ ih

theorem canonicalMembers_eq_self : canonicalMembers members = members ↔
    ∀ m ∈ members, m.2.IsStated := by
  induction members with
  | nil => simp [canonicalMembers]
  | cons m members ih =>
    obtain ⟨k, v⟩ := m
    rw [canonicalMembers, List.forall_mem_cons, ← ih]
    constructor
    · intro h
      split at h
      · have hle := length_canonicalMembers_le members
        rw [h, List.length_cons] at hle
        exact absurd hle (Nat.not_succ_le_self _)
      · next ha =>
        obtain ⟨hv, hrest⟩ := List.cons.inj h
        have hv : v.canonical = v := (Prod.mk.inj hv).2
        rw [hv, Bool.not_eq_true] at ha
        exact ⟨⟨hv, ha⟩, hrest⟩
    · rintro ⟨⟨hv, ha⟩, hrest⟩
      have hv : v.canonical = v := hv
      rw [hv, ha, if_neg Bool.false_ne_true, hrest]

theorem lookup_of_mem {k : String} {v : Json} (hn : (members.map Prod.fst).Nodup)
    (h : (k, v) ∈ members) : members.lookup k = some v := by
  induction members with
  | nil => exact absurd h List.not_mem_nil
  | cons m members ih =>
    rw [List.map_cons, List.nodup_cons] at hn
    cases List.mem_cons.mp h with
    | inl he => exact he ▸ List.lookup_cons_self
    | inr hm =>
      have hne : k ≠ m.1 := fun he => hn.1 (he ▸ List.mem_map_of_mem (f := Prod.fst) hm)
      rw [lookup_cons_ne hne, ih hn.2 hm]

theorem mem_sortMembers {m : String × Json} (hn : (members.map Prod.fst).Nodup) (h : m ∈ members) :
    m ∈ sortMembers members := by
  have hn : (members.reverse.map Prod.fst).Nodup :=
    ((List.reverse_perm members).map _).nodup_iff.mpr hn
  have hl : (sortMembers members).lookup m.1 = some m.2 := by
    rw [lookup_sortMembers, lookup_of_mem hn (List.mem_reverse.mpr h)]
  obtain ⟨before, after, he, -⟩ := List.lookup_eq_some_iff.mp hl
  rw [he]
  simp

theorem lookup_eq_none_of_notMem (h : k ∉ members.map Prod.fst) : members.lookup k = none := by
  apply List.lookup_eq_none_iff.mpr
  intro m hm
  have hne : k ≠ m.1 := fun he => h (he ▸ List.mem_map_of_mem hm)
  simpa using hne

/-- What stands at a member of a document, and what stands there in its canonical form, where less
than `n` containers nest. -/
inductive Trims (n : Nat) (k : String) : Option Json → Option Json → Prop
  | none : Trims n k none none
  | kept {j : Json} (h : j.isRegular = true) (hc : j.namesNull = false)
    (hd : j.canonical.depth < n) : Trims n k (some j) (some j.canonical)
  | dropped {j : Json} (h : j.isAbsent = true) (hs : standsEmpty k j = false) :
    Trims n k (some j) none

theorem trims_lookup (h : (Json.obj members).isRegular = true)
    (hd : (Json.obj members).canonical.depth ≤ n) (k : String) :
    Trims n k (members.lookup k) ((canonicalMembers members).lookup k) := by
  obtain ⟨hn, hr⟩ := isRegular_obj.mp h
  rw [canonical, depth] at hd
  clear h
  induction members with
  | nil => exact .none
  | cons m members ih =>
    obtain ⟨l, v⟩ := m
    rw [List.map_cons, List.nodup_cons] at hn
    have hv := hr (l, v) List.mem_cons_self
    have hrest := fun m hm => hr m (List.mem_cons_of_mem (l, v) hm)
    rw [canonicalMembers, isAbsent_canonical hv.isRegular] at hd ⊢
    by_cases hk : k = l
    · subst hk
      rw [List.lookup_cons_self]
      split
      · next ha =>
        have hgone : (canonicalMembers members).lookup k = none := by
          apply lookup_eq_none_of_notMem
          intro hk
          obtain ⟨m, hm, he⟩ := List.mem_map.mp hk
          obtain ⟨w, hw, -⟩ := mem_canonicalMembers hm
          exact hn.1 (List.mem_map.mpr ⟨(m.1, w), hw, he⟩)
        rw [hgone]
        exact .dropped ha hv.standsEmpty
      · next ha =>
        rw [if_neg ha, depthMembers] at hd
        rw [List.lookup_cons_self]
        exact .kept hv.isRegular hv.namesNull
          (Nat.lt_of_lt_of_le (Nat.lt_succ_of_le (Nat.le_max_left _ _)) hd)
    · rw [lookup_cons_ne hk]
      split
      · next ha =>
        rw [if_pos ha] at hd
        exact ih hd hn.2 hrest
      · next ha =>
        rw [if_neg ha, depthMembers] at hd
        rw [lookup_cons_ne hk]
        exact ih (Nat.le_trans (Nat.succ_le_succ (Nat.le_max_right _ _)) hd) hn.2 hrest

theorem trims_lookup_zip (names : List String) (h : (Json.arr items).isRegular = true)
    (hd : (Json.arr items).canonical.depth ≤ n) (k : String) :
    Trims n k ((names.zip items).lookup k) ((names.zip (items.map canonical)).lookup k) := by
  rw [canonical_arr h, depth] at hd
  rw [isRegular_arr] at h
  induction names generalizing items with
  | nil => exact .none
  | cons name names ih =>
    cases items with
    | nil => exact .none
    | cons j items =>
      rw [List.map_cons, depthItems] at hd
      rw [List.map_cons, List.zip_cons_cons, List.zip_cons_cons]
      by_cases hk : k = name
      · subst hk
        rw [List.lookup_cons_self, List.lookup_cons_self]
        have hj := h j List.mem_cons_self
        exact .kept hj.isRegular hj.namesNull
          (Nat.lt_of_lt_of_le (Nat.lt_succ_of_le (Nat.le_max_left _ _)) hd)
      · rw [lookup_cons_ne hk, lookup_cons_ne hk]
        exact ih (fun i hi => h i (List.mem_cons_of_mem j hi))
          (Nat.le_trans (Nat.succ_le_succ (Nat.le_max_right _ _)) hd)

section Trims

variable {o o' : Option Json} (t : Trims n k o o')
include t

theorem Trims.text? : o'.bind text? = o.bind text? := by
  cases t with
  | none => rfl
  | kept _ _ _ => exact text?_canonical _
  | @dropped j h _ =>
    cases j <;> first | rfl | cases h

theorem Trims.getD (h : (o.getD .null).IsStable) : o'.getD .null = o.getD .null := by
  cases t with
  | none => rfl
  | kept _ _ _ => exact h.canonical
  | @dropped j ha _ =>
    cases j with
    | arr items =>
      cases items with
      | nil => exact absurd rfl h.ne_nil
      | cons j items => cases ha
    | null => rfl
    | _ => cases ha

theorem Trims.eq_some {j : Json} (h : o = some j) (hj : j.IsStated) : o' = some j := by
  subst h
  cases t with
  | kept _ _ _ => exact congrArg some hj.canonical
  | dropped ha _ => exact absurd ha (by rw [hj.isAbsent]; exact Bool.false_ne_true)

end Trims

theorem text?_member?_canonical (h : j.isRegular = true) (k : String) :
    (j.canonical.member? k).bind text? = (j.member? k).bind text? := by
  cases j with
  | obj members => exact (trims_lookup h (Nat.le_refl _) k).text?
  | _ => rfl

theorem without_canonical (keys : List String) (j : Json) :
    j.canonical.without keys = (j.without keys).canonical := by
  cases j with
  | obj members =>
    rw [without, canonical, without, canonical, filter_canonicalMembers fun k => !keys.contains k]
  | _ => rfl

theorem isRegular_without (keys : List String) (h : j.isRegular = true) :
    (j.without keys).isRegular = true := by
  cases j with
  | obj members => exact isRegular_filter h
  | _ => exact h

theorem variant?_canonical (tags : List String) (nested : Bool) (j : Json) :
    variant? tags nested j.canonical = variant? tags nested j := by
  cases j <;> rfl

theorem depthMembers_filter_le (p : String × Json → Bool) (members : List (String × Json)) :
    depthMembers (members.filter p) ≤ depthMembers members := by
  induction members with
  | nil => exact Nat.le_refl _
  | cons m members ih =>
    obtain ⟨k, v⟩ := m
    rw [List.filter_cons]
    split
    · rw [depthMembers, depthMembers]
      exact Nat.max_le.mpr ⟨Nat.le_max_left _ _, Nat.le_trans ih (Nat.le_max_right _ _)⟩
    · exact Nat.le_trans ih (Nat.le_max_right _ _)

theorem tagged?_canonical {tags : List String} {nested : Bool} {tag : String} {d : Json}
    (hj : j.isRegular = true) (h : tagged? tags nested j = some (tag, d)) :
    tagged? tags nested j.canonical = some (tag, d.canonical) ∧ d.isRegular = true ∧
      d.canonical.depth ≤ j.canonical.depth := by
  cases j with
  | obj members =>
    simp only [tagged?, bind_eq_some, pure_eq_some, Prod.mk.injEq] at h
    obtain ⟨t, ht, v, hv, rfl, rfl⟩ := h
    have hd : (Json.obj (members.filter fun m => m.1 != "_type")).canonical =
        .obj ((canonicalMembers members).filter fun m => m.1 != "_type") := by
      rw [canonical, filter_canonicalMembers fun k => k != "_type"]
    have ht' : (canonicalMembers members).lookup "_type" = some t.canonical := by
      have htrims := trims_lookup hj (Nat.le_refl _) "_type"
      rw [ht] at htrims
      generalize (canonicalMembers members).lookup "_type" = o at htrims
      cases htrims with
      | kept _ _ _ => rfl
      | dropped ha _ =>
        cases t <;> first | cases hv | cases ha
    refine ⟨?_, isRegular_filter hj, ?_⟩
    · rw [hd, canonical, tagged?, ht']
      simp only [Option.bind_eq_bind, Option.bind_some, variant?_canonical, hv]
      rfl
    · rw [hd, canonical, depth, depth]
      exact Nat.succ_le_succ (depthMembers_filter_le _ _)
  | arr items =>
    have hitems := isRegular_arr.mp hj
    cases items with
    | nil => cases h
    | cons t items =>
      simp only [tagged?, bind_eq_some, pure_eq_some, Prod.mk.injEq] at h
      obtain ⟨v, hv, rfl, rfl⟩ := h
      have hrest : (Json.arr items).isRegular = true :=
        isRegular_arr.mpr fun i hi => hitems i (List.mem_cons_of_mem t hi)
      rw [canonical_arr hj, canonical_arr hrest]
      refine ⟨?_, hrest, ?_⟩
      · rw [List.map_cons, tagged?, variant?_canonical, hv]
        rfl
      · rw [depth, depth, List.map_cons, depthItems]
        exact Nat.succ_le_succ (Nat.le_max_right _ _)
  | _ => cases h

end Json

open Json

namespace Record

variable {α : Type} {r r' : Record} {names : List String} {j : Json} {n : Nat} {k : String}

theorem trims (hj : j.isRegular = true) (hd : j.canonical.depth ≤ n)
    (h : ofJson? names j = some r) :
    ∃ r', ofJson? names j.canonical = some r' ∧ ∀ k, Trims n k (r.lookup k) (r'.lookup k) := by
  cases j with
  | obj members =>
    simp only [ofJson?, Option.ite_none_right_eq_some, Option.some.injEq] at h
    obtain ⟨hall, rfl⟩ := h
    refine ⟨canonicalMembers members, ?_, trims_lookup hj hd⟩
    rw [canonical, ofJson?, if_pos]
    rw [List.all_eq_true] at hall ⊢
    intro m hm
    obtain ⟨v, hv, -⟩ := mem_canonicalMembers hm
    exact hall (m.1, v) hv
  | arr items =>
    simp only [ofJson?, Option.ite_none_right_eq_some, Option.some.injEq] at h
    obtain ⟨hle, rfl⟩ := h
    refine ⟨names.zip (items.map canonical), ?_, trims_lookup_zip names hj hd⟩
    rw [canonical_arr hj, ofJson?, if_pos (by rwa [List.length_map])]
  | _ => cases h

/-- What a reader finds in a document another one finds in its canonical form, where less than `n`
containers nest. -/
def Agrees (n : Nat) (p : α → Prop) (read read' : Json → Option α) : Prop :=
  ∀ ⦃j a⦄, j.isRegular = true → j.canonical.depth < n → p a → read j = some a →
    read' j.canonical = some a

/-- What a reader finds in a document it finds in its canonical form. -/
def Keeps (read : Json → Option α) : Prop :=
  ∀ ⦃j a⦄, j.isRegular = true → read j = some a → read j.canonical = some a

/-- The reader takes neither null nor an empty array for a value. -/
structure Strict (read : Json → Option α) : Prop where
  null : read .null = none
  nil : read (.arr []) = none

theorem Strict.eq_none {read : Json → Option α} (s : Strict read) (h : j.isAbsent = true) :
    read j = none := by
  cases j with
  | null => exact s.null
  | arr items =>
    cases items with
    | nil => exact s.nil
    | cons j items => cases h
  | _ => cases h

theorem keeps_of_canonical {read : Json → Option α}
    (h : ∀ j a, read j = some a → j.IsCanonical) : Keeps read := by
  intro j a _ ha
  rw [h j a ha, ha]

variable {p : α → Prop} {read read' : Json → Option α} {o o' : Option Json}

section Agrees

variable (h : Agrees n p read read') (t : Trims n k o o')
include h t

theorem Agrees.of_lookup (s : Strict read) {a : α} (hp : p a) (ha : o.bind read = some a) :
    o'.bind read' = some a := by
  cases t with
  | none => cases ha
  | kept hj _ hd => exact h hj hd hp ha
  | dropped hj _ =>
    rw [Option.bind_some, s.eq_none hj] at ha
    cases ha

theorem Agrees.of_document (hk : k ∈ documentMembers) (hn : read .null = none) {a : α} (hp : p a)
    (ha : o.bind read = some a) : o'.bind read' = some a := by
  cases t with
  | none => cases ha
  | kept hj _ hd => exact h hj hd hp ha
  | @dropped j hj hs =>
    cases j with
    | null =>
      rw [Option.bind_some, hn] at ha
      cases ha
    | arr items =>
      cases items with
      | nil =>
        rw [standsEmpty, List.contains_iff_mem.mpr hk] at hs
        cases hs
      | cons j items => cases hj
    | _ => cases hj

omit t in
theorem Agrees.of_items {items : List Json} (hj : (Json.arr items).isRegular = true)
    (hd : (Json.arr items).canonical.depth ≤ n) {as : List α} (hp : ∀ a ∈ as, p a)
    (ha : items.mapM read = some as) : (items.map canonical).mapM read' = some as := by
  rw [canonical_arr hj, depth] at hd
  rw [isRegular_arr] at hj
  induction items generalizing as with
  | nil => exact ha
  | cons j items ih =>
    rw [List.map_cons, depthItems] at hd
    rw [List.mapM_cons] at ha
    simp only [bind_eq_some, pure_eq_some] at ha
    obtain ⟨a, ha, rest, hrest, rfl⟩ := ha
    have hhead := h (hj j List.mem_cons_self).isRegular
      (Nat.lt_of_lt_of_le (Nat.lt_succ_of_le (Nat.le_max_left _ _)) hd) (hp a List.mem_cons_self) ha
    have htail := ih (fun i hi => hj i (List.mem_cons_of_mem j hi))
      (Nat.le_trans (Nat.succ_le_succ (Nat.le_max_right _ _)) hd)
      (fun b hb => hp b (List.mem_cons_of_mem a hb)) hrest
    rw [List.map_cons, List.mapM_cons, hhead, htail]
    rfl

theorem Agrees.of_list {as : List α} (hp : ∀ a ∈ as, p a)
    (ha : readDefault [] (list? read) o = some as) :
    readDefault [] (list? read') o' = some as := by
  cases t with
  | none => exact ha
  | @dropped j hj _ =>
    cases j with
    | arr items =>
      cases items with
      | nil => exact ha
      | cons j items => cases hj
    | _ => cases ha
  | @kept j hj _ hd =>
    cases j with
    | arr items =>
      have hitems := h.of_items hj (Nat.le_of_lt hd) hp ha
      rw [canonical_arr hj]
      exact hitems
    | _ => cases ha

theorem Agrees.of_optional (hn : ∀ a, read (.arr []) = some a → ¬p a) {a : Option α}
    (hp : ∀ b ∈ a, p b) (ha : readOptional read o = some a) : readOptional read' o' = some a := by
  cases t with
  | none => exact ha
  | @dropped j hj _ =>
    cases j with
    | null => exact ha
    | arr items =>
      cases items with
      | nil =>
        obtain ⟨b, hb, rfl⟩ := Option.map_eq_some_iff.mp ha
        exact absurd (hp b rfl) (hn b hb)
      | cons j items => cases hj
    | _ => cases hj
  | @kept j hj _ hd =>
    rw [readOptional] at ha ⊢
    rw [isNull_canonical]
    cases hnull : j.isNull with
    | true =>
      rw [hnull] at ha
      exact ha
    | false =>
      rw [hnull] at ha
      obtain ⟨b, hb, rfl⟩ := Option.map_eq_some_iff.mp ha
      rw [if_neg Bool.false_ne_true, h hj hd (hp b rfl) hb]
      rfl

end Agrees

theorem Keeps.agrees (h : Keeps read) : Agrees n (fun _ => True) read read :=
  fun _ _ hj _ _ ha => h hj ha

section Keeps

variable (h : Keeps read) (t : Trims n k o o')
include h t

theorem Keeps.of_lookup (s : Strict read) {a : α} (ha : o.bind read = some a) :
    o'.bind read = some a :=
  h.agrees.of_lookup t s trivial ha

theorem Keeps.of_list {as : List α} (ha : readDefault [] (list? read) o = some as) :
    readDefault [] (list? read) o' = some as :=
  h.agrees.of_list t (fun _ _ => trivial) ha

theorem Keeps.of_optional (hn : read (.arr []) = none) {a : Option α}
    (ha : readOptional read o = some a) : readOptional read o' = some a :=
  h.agrees.of_optional t (fun a he => absurd (hn.symm.trans he) (Option.some_ne_none a).symm)
    (fun _ _ => trivial) ha

theorem Keeps.of_default (s : Strict read) {value a : α} (ha : readDefault value read o = some a) :
    readDefault value read o' = some a := by
  cases t with
  | none => exact ha
  | dropped hj _ =>
    rw [readDefault_some, s.eq_none hj] at ha
    cases ha
  | kept hj _ _ => exact h hj ha

end Keeps

theorem mapM_some (items : List Json) : items.mapM some = some items := by
  induction items with
  | nil => rfl
  | cons j items ih =>
    rw [List.mapM_cons, ih]
    rfl

theorem trims_items (t : Trims n k o o') {items : List Json}
    (h : readDefault [] (list? some) o = some items) :
    readDefault [] (list? some) o' = some (items.map canonical) ∧
      ∀ j ∈ items, j.isRegular = true := by
  cases t with
  | none =>
    cases h
    exact ⟨rfl, by simp⟩
  | @dropped j hj _ =>
    cases j with
    | arr list =>
      cases list with
      | nil =>
        cases h
        exact ⟨rfl, by simp⟩
      | cons i list => cases hj
    | _ => cases h
  | @kept j hj _ _ =>
    cases j with
    | arr list =>
      have h : list.mapM some = some items := h
      rw [mapM_some] at h
      cases h
      rw [canonical_arr hj]
      exact ⟨mapM_some _, fun i hi => (isRegular_arr.mp hj i hi).isRegular⟩
    | _ => cases h

end Record
end ModelGraph
