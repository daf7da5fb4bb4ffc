import Mathlib.Data.List.Forall2
import ModelGraph.Proofs.DomainDocuments
import ModelGraph.Proofs.Forms
import ModelGraph.Proofs.Removals

namespace ModelGraph

open Record Json

namespace Json

/-- What is compared of a value: its canonical form, up to the signs of zeros. -/
def gist (j : Json) : Json := j.canonical.unsignedZeros

/-- What stands at a member in canonical form. -/
def shown (o : Option Json) : Option Json := (o.map canonical).filter fun j => !j.isAbsent

/-- What is compared of a member. -/
def said (o : Option Json) : Option Json := (shown o).map unsignedZeros

variable {members rest : List (String × Json)} {items : List Json} {j w : Json} {k : String}

theorem shown_some (h : j.canonical.isAbsent = false) : shown (some j) = some j.canonical := by
  simp [shown, h]

theorem shown_absent (h : j.canonical.isAbsent = true) : shown (some j) = none := by
  simp [shown, h]

theorem said_some (h : j.canonical.isAbsent = false) : said (some j) = some j.gist := by
  rw [said, shown_some h]
  rfl

theorem said_of_shown {o : Option Json} (h : shown o = none) : said o = none := by
  rw [said, h]
  rfl

theorem shown_none : shown none = none := rfl

theorem ordered_canonicalMembers (h : Ordered members) : Ordered (canonicalMembers members) := by
  induction members with
  | nil => exact .nil
  | cons m members ih =>
    obtain ⟨l, v⟩ := m
    obtain ⟨hm, hmembers⟩ := List.pairwise_cons.mp h
    rw [canonicalMembers]
    split
    · exact ih hmembers
    · refine List.pairwise_cons.mpr ⟨fun m hmem => ?_, ih hmembers⟩
      obtain ⟨v, hv, -⟩ := mem_canonicalMembers hmem
      exact hm (m.1, v) hv

/-- Members in order are shown one by one. -/
theorem lookup_canonicalMembers (h : Ordered members) (k : String) :
    (canonicalMembers members).lookup k = shown (members.lookup k) := by
  induction members with
  | nil => rfl
  | cons m members ih =>
    obtain ⟨l, v⟩ := m
    obtain ⟨hm, hmembers⟩ := List.pairwise_cons.mp h
    have hrest := ih hmembers
    rw [canonicalMembers]
    by_cases hk : k = l
    · subst hk
      rw [List.lookup_cons_self]
      split
      · next ha => rw [hrest, lookup_of_lt hm, shown_absent ha, shown_none]
      · next ha => rw [List.lookup_cons_self, shown_some (Bool.not_eq_true _ ▸ ha)]
    · rw [lookup_cons_ne hk]
      split
      · exact hrest
      · rw [lookup_cons_ne hk, hrest]

theorem unsignedZerosMembers_eq_map (members : List (String × Json)) :
    unsignedZerosMembers members = members.map fun m => (m.1, m.2.unsignedZeros) := by
  induction members with
  | nil => rfl
  | cons m members ih => rw [unsignedZerosMembers, ih, List.map_cons]

theorem unsignedZerosItems_eq_map (items : List Json) :
    unsignedZerosItems items = items.map unsignedZeros := by
  induction items with
  | nil => rfl
  | cons j items ih => rw [unsignedZerosItems, ih, List.map_cons]

theorem ordered_unsignedZerosMembers (h : Ordered members) :
    Ordered (unsignedZerosMembers members) := by
  rw [unsignedZerosMembers_eq_map]
  exact List.pairwise_map.mpr h

theorem lookup_unsignedZerosMembers (k : String) :
    (unsignedZerosMembers members).lookup k = (members.lookup k).map unsignedZeros := by
  induction members with
  | nil => rfl
  | cons m members ih =>
    rw [unsignedZerosMembers_eq_map] at ih ⊢
    by_cases hk : k = m.1
    · rw [hk, lookup_head, List.map_cons, lookup_head (m.1, m.2.unsignedZeros), Option.map_some]
    · rw [lookup_cons_ne hk, List.map_cons]
      exact (lookup_cons_ne (by exact hk)).trans ih

/-- Objects in order say the same exactly if their members do. -/
theorem gist_obj_eq_iff (hm : Ordered members) (hr : Ordered rest) :
    (Json.obj members).gist = (Json.obj rest).gist ↔
      ∀ k, said (members.lookup k) = said (rest.lookup k) := by
  have hlookup : ∀ {ms : List (String × Json)}, Ordered ms → ∀ k,
      (unsignedZerosMembers (canonicalMembers ms)).lookup k = said (ms.lookup k) := by
    intro ms h k
    rw [lookup_unsignedZerosMembers, lookup_canonicalMembers h, said]
  rw [gist, gist, canonical, canonical, unsignedZeros, unsignedZeros, Json.obj.injEq]
  constructor
  · intro h k
    rw [← hlookup hm, h, hlookup hr]
  · intro h
    apply (ordered_unsignedZerosMembers (ordered_canonicalMembers hm)).ext
      (ordered_unsignedZerosMembers (ordered_canonicalMembers hr))
    intro k
    rw [hlookup hm, hlookup hr, h]

/-- The members are in order at every depth, and less than `n` containers nest. -/
structure IsTidy (n : Nat) (j : Json) : Prop where
  inOrder : j.InOrder
  depth_lt : j.depth < n

namespace IsTidy

variable {n : Nat} {names : List String} {r : Record}

theorem succ (h : j.IsTidy n) : j.IsTidy (n + 1) := ⟨h.inOrder, Nat.lt_succ_of_lt h.depth_lt⟩

theorem item (h : (Json.arr items).IsTidy (n + 1)) (hj : j ∈ items) : j.IsTidy n :=
  ⟨inOrder_arr.mp h.inOrder j hj,
    Nat.lt_of_lt_of_le (depth_lt_of_mem_items hj) (Nat.le_of_lt_succ h.depth_lt)⟩

theorem member (h : (Json.obj members).IsTidy (n + 1)) (hj : members.lookup k = some j) :
    j.IsTidy n := by
  obtain ⟨before, after, rfl, -⟩ := List.lookup_eq_some_iff.mp hj
  exact ⟨(inOrder_obj.mp h.inOrder).2 (k, j) (by simp),
    Nat.lt_of_lt_of_le (depth_lt_of_lookup k hj) (Nat.le_of_lt_succ h.depth_lt)⟩

theorem found (h : j.IsTidy (n + 1)) (hr : Record.ofJson? names j = some r)
    (hw : r.lookup k = some w) : w.IsTidy n := by
  cases j with
  | obj members =>
    rw [Record.ofJson?] at hr
    split at hr
    · obtain rfl := Option.some.inj hr
      exact h.member hw
    · cases hr
  | arr items =>
    rw [Record.ofJson?] at hr
    split at hr
    · obtain rfl := Option.some.inj hr
      obtain ⟨before, after, hzip, -⟩ := List.lookup_eq_some_iff.mp hw
      have hmem : (k, w) ∈ names.zip items := hzip ▸ by simp
      exact h.item (List.of_mem_zip hmem).2
    · cases hr
  | _ => cases hr

theorem untagged {tags : List String} {nested : Bool} {tag : String} (h : j.IsTidy n)
    (ht : tagged? tags nested j = some (tag, w)) : w.IsTidy n := by
  cases j with
  | obj members =>
    simp only [tagged?, bind_eq_some, pure_eq_some, Prod.mk.injEq] at ht
    obtain ⟨-, -, -, -, -, rfl⟩ := ht
    obtain ⟨hordered, hvalues⟩ := inOrder_obj.mp h.inOrder
    refine ⟨inOrder_obj.mpr ⟨hordered.filter, fun m hm => hvalues m ((List.mem_filter.mp hm).1)⟩, ?_⟩
    refine Nat.lt_of_le_of_lt ?_ h.depth_lt
    rw [depth, depth]
    exact Nat.succ_le_succ (depthMembers_filter_le _ _)
  | arr items =>
    cases items with
    | nil => cases ht
    | cons t items =>
      simp only [tagged?, bind_eq_some, pure_eq_some, Prod.mk.injEq] at ht
      obtain ⟨-, -, -, rfl⟩ := ht
      refine ⟨inOrder_arr.mpr fun i hi =>
        inOrder_arr.mp h.inOrder i (List.mem_cons_of_mem t hi), ?_⟩
      refine Nat.lt_of_le_of_lt ?_ h.depth_lt
      rw [depth, depth, depthItems]
      exact Nat.succ_le_succ (Nat.le_max_right _ _)
  | _ => cases ht

end IsTidy

end Json

namespace Form

/-- The form tells whether `w`, which is written of what is read of `j`, says the same as `j`. -/
structure Tells (f : Form) (j w : Json) : Prop where
  exact : w.gist = j.gist ↔ f j.canonical = true
  stated : w.canonical.isAbsent = false
  there : j.isNull = false

/-- The same at a member. -/
def TellsAt (p : Option Json → Bool) (o w : Option Json) : Prop :=
  said w = said o ↔ p (shown o) = true

variable {f : Form} {j w : Json} {o : Option Json}

theorem tellsAt_of_not_shown (ho : shown o = none) (hw : w.canonical.isAbsent = false) :
    TellsAt (needed f) o (some w) := by
  rw [TellsAt, said_some hw, said_of_shown ho, ho]
  simp [needed]

theorem Tells.needed (h : f.Tells j w) : TellsAt (needed f) (some j) (some w) := by
  cases ha : j.canonical.isAbsent with
  | true => exact tellsAt_of_not_shown (shown_absent ha) h.stated
  | false =>
    rw [TellsAt, said_some h.stated, said_some ha, shown_some ha, Option.some.injEq]
    exact h.exact

theorem Tells.optional (h : f.Tells j w) (ha : j.canonical.isAbsent = false) :
    TellsAt (optional f) (some j) (some w) := by
  rw [TellsAt, said_some h.stated, said_some ha, shown_some ha, Option.some.injEq]
  exact h.exact

theorem tellsAt_optional (ho : shown o = none) : TellsAt (optional f) o none := by
  rw [TellsAt, said_of_shown ho, ho]
  exact iff_of_true rfl rfl

theorem tellsAt_free {w : Option Json} (h : said w = said o) : TellsAt free o w :=
  iff_of_true h rfl

theorem tellsAt_exactly {s : String} (h : ∀ j, o = some j → ∃ t, j = .str t) :
    TellsAt (Form.needed (exactly s)) o (some (.str s)) := by
  cases o with
  | none => exact tellsAt_of_not_shown rfl rfl
  | some j =>
    obtain ⟨t, rfl⟩ := h j rfl
    rw [TellsAt, said_some rfl, said_some rfl, shown_some rfl, Option.some.injEq]
    exact Json.str.injEq s t ▸ eq_comm.trans beq_iff_eq.symm

theorem Tells.isNull (h : f.Tells j w) : w.isNull = false := by
  cases w with
  | null => exact h.stated
  | _ => rfl

theorem tells_items {items ws : List Json} (h : List.Forall₂ f.Tells items ws) :
    (∀ i ∈ items, i.isNull = false) ∧ (∀ w ∈ ws, w.isNull = false) ∧
      (ws.map gist = items.map gist ↔ (items.map canonical).all f = true) := by
  induction h with
  | nil => exact ⟨List.forall_mem_nil _, List.forall_mem_nil _, iff_of_true rfl rfl⟩
  | cons h _ ih =>
    obtain ⟨hitems, hws, hgist⟩ := ih
    refine ⟨List.forall_mem_cons.mpr ⟨h.there, hitems⟩,
      List.forall_mem_cons.mpr ⟨h.isNull, hws⟩, ?_⟩
    rw [List.map_cons, List.map_cons, List.cons.injEq, List.map_cons, List.all_cons,
      Bool.and_eq_true, h.exact, hgist]

theorem tellsAt_listed {items ws : List Json} (h : List.Forall₂ f.Tells items ws) :
    TellsAt (Form.listed f) (some (.arr items)) (Record.listed ws) := by
  obtain ⟨hitems, hws, hall⟩ := tells_items h
  have hgist : ∀ {js : List Json}, (∀ j ∈ js, j.isNull = false) →
      (Json.arr js).gist = .arr (js.map gist) := by
    intro js hjs
    rw [gist, canonical_arr_of_there hjs, unsignedZeros, unsignedZerosItems_eq_map, List.map_map]
    rfl
  cases h with
  | nil => exact tellsAt_optional rfl
  | @cons i w items ws _ _ =>
    have hfull : ∀ {j js}, (∀ i ∈ j :: js, i.isNull = false) →
        (Json.arr (j :: js)).canonical.isAbsent = false := by
      intro j js hjs
      rw [canonical_arr_of_there hjs]
      rfl
    rw [TellsAt, Record.listed, if_neg (by simp), said_some (hfull hws), said_some (hfull hitems),
      shown_some (hfull hitems), Option.some.injEq, hgist hws, hgist hitems, Json.arr.injEq,
      hall, canonical_arr_of_there hitems]
    rfl

theorem forall_fields {fields : Fields} {P : String → Prop} (hn : ∀ k, k ∉ fields.map Prod.fst → P k) :
    (∀ k, P k) ↔ ∀ f ∈ fields, P f.1 := by
  refine ⟨fun h f _ => h f.1, fun h k => ?_⟩
  by_cases hk : k ∈ fields.map Prod.fst
  · obtain ⟨f, hf, rfl⟩ := List.mem_map.mp hk
    exact h f hf
  · exact hn k hk

variable {names : List String} {r w' : Record} {fields : Fields}

/-- A record is told member by member. -/
theorem record_tells (hj : j.InOrder) (hr : Record.ofJson? names j = some r)
    (hn : fields.map Prod.fst = names) (hw : Within (· ∈ names) w')
    (h : ∀ f ∈ fields, TellsAt f.2 (r.lookup f.1) ((sortMembers w').lookup f.1)) :
    (record fields).Tells j w'.toJson := by
  subst hn
  refine ⟨?_, rfl, ?_⟩
  · cases j with
    | obj members =>
      obtain ⟨hordered, -⟩ := inOrder_obj.mp hj
      rw [Record.ofJson?] at hr
      split at hr
      · next hall =>
        obtain rfl := Option.some.inj hr
        -- A member that the form does not name is neither read nor written.
        have hout : ∀ k, k ∉ fields.map Prod.fst →
            said ((sortMembers w').lookup k) = said (members.lookup k) := by
          intro k hk
          rw [lookup_of_within hw hk, lookup_eq_none_of_notMem]
          intro hm
          obtain ⟨m, hmem, rfl⟩ := List.mem_map.mp hm
          exact hk (List.contains_iff_mem.mp (List.all_eq_true.mp hall m hmem))
        rw [Record.toJson, object, gist_obj_eq_iff (ordered_sortMembers w') hordered,
          forall_fields hout, canonical, record, List.all_eq_true]
        apply forall₂_congr
        intro f hf
        rw [lookup_canonicalMembers hordered]
        exact h f hf
      · cases hr
    | arr items =>
      -- What is written is an object, and no array says the same.
      refine iff_of_false (fun hg => ?_) Bool.false_ne_true
      cases hg
    | _ => cases hr
  · cases j <;> first | rfl | cases hr

theorem tellsAt_tag {tags : List String} {nested : Bool} {tag : String} {t : Json}
    (ht : variant? tags nested t = some tag) :
    TellsAt (Form.needed (exactly tag)) (some t) (some (.str tag)) := by
  cases t with
  | str s => exact tellsAt_exactly fun j hj => ⟨s, (Option.some.inj hj).symm⟩
  | num n =>
    rw [TellsAt, said_some rfl, said_some rfl, shown_some rfl, Option.some.injEq]
    exact iff_of_false (fun h => by cases h) Bool.false_ne_true
  | _ => cases ht

/-- A text that names a variant is its name. -/
theorem variant_eq {forms : String → Option Fields} {tags : List String} {nested : Bool}
    {tag : String} {t : Json} {members : Record} (hm : members.lookup "_type" = some t.canonical)
    (ht : variant? tags nested t = some tag) (hforms : forms tag = some fields) :
    variant forms (.obj members) =
      record (("_type", Form.needed (exactly tag)) :: fields) (.obj members) := by
  cases t with
  | str s =>
    obtain rfl : s = tag := by
      rw [variant?] at ht
      split at ht
      · exact Option.some.inj ht
      · cases ht
    rw [variant, hm]
    simp [canonical, hforms, record, hm, Form.needed, exactly]
  | num n =>
    rw [variant, hm]
    simp [canonical, record, hm, Form.needed, exactly]
  | _ => cases ht

/-- A tagged record is told by its tag and its members. -/
theorem variant_tells {forms : String → Option Fields} {tags : List String} {nested : Bool}
    {tag : String} {d : Json} (hj : j.InOrder) (ht : tagged? tags nested j = some (tag, d))
    (hforms : forms tag = some fields) (hr : Record.ofJson? names d = some r)
    (hn : fields.map Prod.fst = names) (htype : "_type" ∉ names) (hw : Within (· ∈ names) w')
    (h : ∀ f ∈ fields, TellsAt f.2 (r.lookup f.1) ((sortMembers w').lookup f.1)) :
    (variant forms).Tells j (Record.tagged tag w') := by
  subst hn
  cases j with
  | obj members =>
    obtain ⟨hordered, -⟩ := inOrder_obj.mp hj
    simp only [tagged?, bind_eq_some, pure_eq_some, Prod.mk.injEq] at ht
    obtain ⟨t, hlookup, tag', ht, rfl, rfl⟩ := ht
    rw [Record.ofJson?] at hr
    split at hr
    · next hall =>
      obtain rfl := Option.some.inj hr
      have hstated : t.canonical.isAbsent = false := by
        cases t <;> first | rfl | cases ht
      have hmembers : Record.ofJson? ("_type" :: fields.map Prod.fst) (.obj members) =
          some members := by
        refine if_pos (List.all_eq_true.mpr fun m hm => List.contains_iff_mem.mpr ?_)
        by_cases hk : m.1 = "_type"
        · exact hk ▸ List.mem_cons_self
        · have hm : m ∈ members.filter fun m => m.1 != "_type" :=
            List.mem_filter.mpr ⟨hm, bne_iff_ne.mpr hk⟩
          exact List.mem_cons_of_mem _ (List.contains_iff_mem.mp (List.all_eq_true.mp hall m hm))
      have hwithin : Within (· ∈ "_type" :: fields.map Prod.fst)
          (field "_type" (.str tag') ++ w') :=
        within_append.mpr ⟨within_field List.mem_cons_self,
          fun m hm => List.mem_cons_of_mem _ (hw m hm)⟩
      have hat : ∀ f ∈ ("_type", Form.needed (exactly tag')) :: fields,
          TellsAt f.2 (members.lookup f.1)
            ((sortMembers (field "_type" (.str tag') ++ w')).lookup f.1) := by
        refine List.forall_mem_cons.mpr ⟨?_, fun f hf => ?_⟩
        · simp only [lookup_written_append, lookup_of_within hw htype, lookup_written_field, if_true,
            Option.none_or, hlookup]
          exact tellsAt_tag ht
        · have hne : f.1 ≠ "_type" := fun he => htype (he ▸ List.mem_map_of_mem hf)
          have hf := h f hf
          rw [lookup_filter_key (fun k => k != "_type"), if_pos (bne_iff_ne.mpr hne)] at hf
          simpa [hne] using hf
      have htells : (record (("_type", Form.needed (exactly tag')) :: fields)).Tells (.obj members)
          (Record.toJson (field "_type" (.str tag') ++ w')) := record_tells hj hmembers rfl hwithin hat
      refine ⟨?_, htells.stated, htells.there⟩
      rw [canonical, variant_eq ((lookup_canonicalMembers hordered _).trans
        (hlookup ▸ shown_some hstated)) ht hforms]
      exact htells.exact
    · cases hr
  | arr items =>
    refine ⟨iff_of_false (fun hg => ?_) Bool.false_ne_true, rfl, rfl⟩
    cases hg
  | _ => cases ht

/-- The values that are looked up in a record are tidy. -/
def Tidies (n : Nat) (r : Record) : Prop := ∀ k v, r.lookup k = some v → v.IsTidy n

theorem tidies {n : Nat} (hj : j.IsTidy (n + 1)) (hr : Record.ofJson? names j = some r) :
    Tidies n r :=
  fun _ _ hv => hj.found hr hv

/-- The form tells whether what is read of a tidy document is written as it. -/
def Spells {α : Type} (n : Nat) (f : Form) (read : Json → Option α) (write : α → Json) : Prop :=
  ∀ ⦃j a⦄, j.IsTidy n → read j = some a → f.Tells j (write a)

/-- The same where writing may fail. -/
def SpellsOk {α ε : Type} (n : Nat) (f : Form) (read : Json → Option α)
    (write : α → Except ε Json) : Prop :=
  ∀ ⦃j a w⦄, j.IsTidy n → read j = some a → write a = .ok w → f.Tells j w

/-- Nothing absent is read. -/
def Solid {α : Type} (read : Json → Option α) : Prop :=
  ∀ ⦃j a⦄, read j = some a → j.canonical.isAbsent = false

variable {n : Nat} {α : Type} {read : Json → Option α} {write : α → Json} {k : String}

theorem spells_of_faithful
    (h : ∀ j a, read j = some a → write a = j ∧ j.canonical.isAbsent = false ∧ f j.canonical = true) :
    Spells n f read write := by
  intro j a _ ha
  obtain ⟨rfl, hstated, hf⟩ := h j a ha
  refine ⟨iff_of_true rfl hf, hstated, ?_⟩
  rw [← isNull_canonical]
  cases hc : (write a).canonical with
  | null => rw [hc] at hstated; cases hstated
  | _ => rfl

theorem forall₂_of_mapM {R : Json → α → Prop} {items : List Json} {as : List α}
    (ha : items.mapM read = some as) (h : ∀ i ∈ items, ∀ a, read i = some a → R i a) :
    List.Forall₂ R items as := by
  induction items generalizing as with
  | nil =>
    cases ha
    exact .nil
  | cons i items ih =>
    obtain ⟨hi, hitems⟩ := List.forall_mem_cons.mp h
    simp only [List.mapM_cons, bind_eq_some, pure_eq_some] at ha
    obtain ⟨a, ha, as, has, rfl⟩ := ha
    exact .cons (hi a ha) (ih has hitems)

/-- A list is told item by item. -/
theorem tellsAt_items (hr : Tidies n r) {as : List α} {ws : List Json}
    (ha : readDefault [] (list? read) (r.lookup k) = some as)
    (h : ∀ items : List Json, (∀ i ∈ items, i.IsTidy n) → items.mapM read = some as →
      List.Forall₂ f.Tells items ws) :
    TellsAt (Form.listed f) (r.lookup k) (Record.listed ws) := by
  cases hv : r.lookup k with
  | none =>
    rw [hv] at ha
    cases ha
    cases h [] (List.forall_mem_nil _) rfl
    exact tellsAt_optional rfl
  | some v =>
    rw [hv, readDefault_some] at ha
    obtain ⟨items, hitems, ha⟩ := Option.bind_eq_some_iff.mp ha
    cases v with
    | arr js =>
      obtain rfl := Option.some.inj hitems
      exact tellsAt_listed (h js (fun i hi => (hr k _ hv).succ.item hi) ha)
    | _ => cases hitems

theorem tells_written {ε : Type} {write : α → Except ε Json} {items ws : List Json} {as : List α}
    (h : List.Forall₂ (fun i a => ∀ w, write a = .ok w → f.Tells i w) items as)
    (hw : as.mapM write = .ok ws) : List.Forall₂ f.Tells items ws := by
  induction h generalizing ws with
  | nil =>
    cases hw
    exact .nil
  | cons htells _ ih =>
    simp only [List.mapM_cons, bind_eq_ok, pure_eq_ok] at hw
    obtain ⟨w, hw, ws, hws, rfl⟩ := hw
    exact .cons (htells w hw) (ih hws)

theorem SpellsOk.listed {ε : Type} {write : α → Except ε Json} (h : SpellsOk n f read write)
    (hr : Tidies n r) {as : List α} {ws : List Json}
    (ha : readDefault [] (list? read) (r.lookup k) = some as) (hw : as.mapM write = .ok ws) :
    TellsAt (Form.listed f) (r.lookup k) (Record.listed ws) := by
  apply tellsAt_items hr ha
  intro items hitems ha
  exact tells_written (forall₂_of_mapM ha fun i hi a ha w => h (hitems i hi) ha) hw

section Spells

variable (h : Spells n f read write) (hr : Tidies n r)
include h hr

theorem Spells.needed {a : α} (ha : (r.lookup k).bind read = some a) :
    TellsAt (Form.needed f) (r.lookup k) (some (write a)) := by
  obtain ⟨v, hv, ha⟩ := Option.bind_eq_some_iff.mp ha
  rw [hv]
  exact (h (hr k v hv) ha).needed

theorem Spells.withDefault {value a : α} (ha : readDefault value read (r.lookup k) = some a)
    (hw : (write value).canonical.isAbsent = false) :
    TellsAt (Form.needed f) (r.lookup k) (some (write a)) := by
  cases hv : r.lookup k with
  | none =>
    rw [hv] at ha
    cases ha
    exact tellsAt_of_not_shown rfl hw
  | some v =>
    rw [hv] at ha
    exact (h (hr k v hv) ha).needed

theorem Spells.optional (hs : Solid read) {a : Option α}
    (ha : readOptional read (r.lookup k) = some a) :
    TellsAt (Form.optional f) (r.lookup k) (a.map write) := by
  cases hv : r.lookup k with
  | none =>
    rw [hv] at ha
    cases ha
    exact tellsAt_optional rfl
  | some v =>
    rw [hv, readOptional] at ha
    split at ha
    · next hnull =>
      cases ha
      cases v <;> first | exact tellsAt_optional rfl | cases hnull
    · obtain ⟨b, hb, rfl⟩ := Option.map_eq_some_iff.mp ha
      exact (h (hr k v hv) hb).optional (hs hb)

theorem Spells.listed {as : List α} (ha : readDefault [] (list? read) (r.lookup k) = some as) :
    TellsAt (Form.listed f) (r.lookup k) (Record.listed (as.map write)) := by
  apply tellsAt_items hr ha
  intro items hitems ha
  exact List.forall₂_map_right_iff.mpr (forall₂_of_mapM ha fun i hi a ha => h (hitems i hi) ha)

end Spells

/-- A list with an item that is not null is there. -/
theorem isAbsent_arr_of_mem {items : List Json} (h : w ∈ items) (hw : w.isNull = false) :
    (Json.arr items).canonical.isAbsent = false := by
  rw [canonical]
  obtain ⟨before, after, rfl⟩ := List.append_of_mem h
  rw [canonicalItems_append, canonicalItems, hw, if_neg Bool.false_ne_true]
  cases canonicalItems before <;> rfl

/-- A record in which something is found is there. -/
theorem isAbsent_of_found {v : Json} (hr : Record.ofJson? names j = some r)
    (hv : r.lookup k = some v) (hn : v.isNull = false) : j.canonical.isAbsent = false := by
  cases j with
  | arr items =>
    rw [Record.ofJson?] at hr
    split at hr
    · obtain rfl := Option.some.inj hr
      obtain ⟨before, after, hzip, -⟩ := List.lookup_eq_some_iff.mp hv
      have hmem : (k, v) ∈ names.zip items := hzip ▸ by simp
      exact isAbsent_arr_of_mem (List.of_mem_zip hmem).2 hn
    · cases hr
  | obj members => rfl
  | _ => cases hr

theorem isAbsent_of_tagged {tags : List String} {nested : Bool} {tag : String} {d : Json}
    (ht : tagged? tags nested j = some (tag, d)) : j.canonical.isAbsent = false := by
  cases j with
  | arr items =>
    cases items with
    | nil => cases ht
    | cons t items =>
      simp only [tagged?, bind_eq_some, pure_eq_some, Prod.mk.injEq] at ht
      obtain ⟨v, hv, -⟩ := ht
      apply isAbsent_arr_of_mem List.mem_cons_self
      cases t <;> first | rfl | cases hv
  | obj members => rfl
  | _ => cases ht

theorem eq_str_of_text? {s : String} (h : j.text? = some s) : j = .str s := by
  cases j <;> cases h
  rfl

theorem text_spells : Spells n text text? .str :=
  spells_of_faithful fun j s h => by
    obtain rfl := eq_str_of_text? h
    exact ⟨rfl, rfl, rfl⟩

theorem text_solid : Solid text? := by
  intro j s h
  obtain rfl := eq_str_of_text? h
  rfl

theorem flag_spells : Spells n flag bool? .bool :=
  spells_of_faithful fun j b h => by
    cases j <;> cases h
    exact ⟨rfl, rfl, rfl⟩

theorem flag_solid : Solid bool? := by
  intro j b h
  cases j <;> cases h
  rfl

theorem nat32_spells : Spells n int nat32? ofNat :=
  spells_of_faithful fun j a h => by
    obtain ⟨m, hm, rfl⟩ := Option.map_eq_some_iff.mp h
    obtain ⟨rfl, hlow, -⟩ := intBetween?_eq_some.mp hm
    refine ⟨?_, rfl, rfl⟩
    rw [ofNat, Int.toNat_of_nonneg hlow]

theorem int64_spells : Spells n int int64? fun i => .num (.int i) :=
  spells_of_faithful fun j i h => by
    obtain ⟨rfl, -⟩ := intBetween?_eq_some.mp h
    exact ⟨rfl, rfl, rfl⟩

theorem nat32_solid : Solid nat32? := by
  intro j a h
  obtain ⟨m, hm, -⟩ := Option.map_eq_some_iff.mp h
  obtain ⟨rfl, -⟩ := intBetween?_eq_some.mp hm
  rfl

theorem reference_spells {F : Family} :
    Spells n text (Reference.ofJson? (f := F)) (Reference.toJson Link.path) :=
  spells_of_faithful fun j a h => by
    obtain ⟨s, hs, rfl⟩ := Option.map_eq_some_iff.mp h
    obtain rfl := eq_str_of_text? hs
    exact ⟨rfl, rfl, rfl⟩

theorem reference_solid {F : Family} : Solid (Reference.ofJson? (f := F)) := by
  intro j a h
  obtain ⟨s, hs, -⟩ := Option.map_eq_some_iff.mp h
  exact text_solid hs

theorem tellsAt_constant {s t value : String} (h : readDefault value text? o = some t) :
    TellsAt (Form.needed (exactly s)) o (some (.str s)) := by
  apply tellsAt_exactly
  intro j hj
  rw [hj] at h
  exact ⟨t, eq_str_of_text? h⟩

theorem tellsAt_value : TellsAt free o (stated (o.getD .null)) := by
  apply tellsAt_free
  cases o with
  | none => rfl
  | some j => cases j <;> rfl

theorem tellsAt_optional_value {a : Option Json} (ha : readOptional some o = some a) :
    TellsAt free o a := by
  apply tellsAt_free
  cases o with
  | none => cases ha; rfl
  | some j =>
    rw [readOptional] at ha
    split at ha
    · next hnull =>
      cases ha
      cases j <;> first | rfl | cases hnull
    · cases ha; rfl

theorem tellsAt_values {items : List Json} (ha : readDefault [] (list? some) o = some items) :
    TellsAt (Form.listed any) o (Record.listed items) := by
  cases o with
  | none =>
    cases ha
    exact tellsAt_optional rfl
  | some v =>
    obtain ⟨js, hjs, ha⟩ := Option.bind_eq_some_iff.mp ha
    rw [mapM_some] at ha
    obtain rfl := Option.some.inj ha
    cases v with
    | arr js =>
      obtain rfl := Option.some.inj hjs
      have hsaid : said (Record.listed js) = said (some (.arr js)) := by
        cases js <;> rfl
      apply iff_of_true hsaid
      cases hc : (Json.arr js).canonical.isAbsent with
      | true => rw [shown_absent hc]; rfl
      | false =>
        rw [shown_some hc, canonical]
        exact List.all_eq_true.mpr fun _ _ => rfl
    | _ => cases hjs

end Form

end ModelGraph
