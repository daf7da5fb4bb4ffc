import ModelGraph.Proofs.ColumnText
import ModelGraph.Proofs.DomainDocuments

namespace ModelGraph

open Record Json

theorem TablePointer.respells (names : Naming) :
    Respells TablePointer.ofJson? (TablePointer.toJson names) (TablePointer.rebind (repath names)) := by
  intro j t h
  simp only [TablePointer.ofJson?, bind_eq_some, pure_eq_some] at h
  obtain ⟨r, -, tag, -, table, -, schema, -, database, hd, rfl⟩ := h
  have hd := (Reference.respells names).of_lookup hd
  simp [toJson, ofJson?, rebind, tagged_eq, ofJson?_toJson, hd]

theorem JoinPointer.respells (names : Naming) :
    Respells JoinPointer.ofJson? (JoinPointer.toJson names) (JoinPointer.rebind (repath names)) := by
  intro j p h
  simp only [JoinPointer.ofJson?, bind_eq_some, pure_eq_some, optText_eq] at h
  obtain ⟨r, -, database, hd, name, -, joinType, hj, rfl⟩ := h
  have hd := (Reference.respells names).of_lookup hd
  have hj := text_rereads.of_optional (fun _ => rfl) hj
  simp [toJson, ofJson?, rebind, ofJson?_toJson, hd, hj]

namespace RelationalOperation

theorem toJsons_eq (names : Naming) (os : List RelationalOperation) :
    toJsons names os = os.map (toJson names) := by
  induction os with
  | nil => rfl
  | cons o os ih => rw [toJsons, ih, List.map_cons]

theorem isNull_toJson (names : Naming) (o : RelationalOperation) :
    (o.toJson names).isNull = false := by
  cases o with
  | joined joins element => cases element <;> rfl
  | _ => rfl

theorem rebindAll_eq (f : Rebinding) (os : List RelationalOperation) :
    rebindAll f os = os.map (rebind f) := by
  induction os with
  | nil => rfl
  | cons o os ih => rw [rebindAll, ih, List.map_cons]

theorem read_toJson {names : Naming} {fuel : Nat} {nested : Bool} {j : Json}
    {o : RelationalOperation} (h : read fuel nested j = some o) {more : Nat}
    (hm : (o.toJson names).depth < more) (within : Bool) :
    read more within (o.toJson names) = some (o.rebind (repath names)) := by
  induction fuel generalizing nested j o more within with
  | zero => cases h
  | succ fuel ih =>
    cases more with
    | zero => exact absurd hm (Nat.not_lt_zero _)
    | succ more =>
      obtain ⟨⟨tag, document⟩, -, h⟩ := bind_eq_some.mp h
      simp only at h
      split at h
      · simp only [bind_eq_some, pure_eq_some] at h
        obtain ⟨r, -, table, ht, tableAlias, -, name, -, rfl⟩ := h
        have ht := (TablePointer.respells names).of_lookup ht
        simp [toJson, rebind, read, tagged?_tagged, tags, ofJson?_toJson, ht]
      · simp only [bind_eq_some, pure_eq_some, list_eq] at h
        obtain ⟨r, -, name, -, parameters, hp, rfl⟩ := h
        have hp : readDefault [] (list? (read more true))
            (listed (parameters.map (toJson names))) = some (parameters.map (rebind (repath names))) := by
          apply respell_listed
          intro o ho
          obtain ⟨i, hi⟩ := mem_of_list hp o ho
          apply ih hi
          rw [toJson, toJsons_eq, tagged_eq] at hm
          apply Nat.lt_of_succ_lt_succ (Nat.lt_trans _ hm)
          apply depth_lt_of_listed "parameters" _ (List.mem_map_of_mem (f := toJson names) ho)
          simp
        simp [toJson, toJsons_eq, rebind, rebindAll_eq, read, tagged?_tagged, tags, ofJson?_toJson, hp]
      · simp only [bind_eq_some, pure_eq_some] at h
        obtain ⟨r, -, value, -, rfl⟩ := h
        simp [toJson, rebind, read, tagged?_tagged, tags, ofJson?_toJson]
      · simp only [bind_eq_some, pure_eq_some, list_eq, optional_eq] at h
        obtain ⟨r, -, joins, hj, element, he, rfl⟩ := h
        have hj := (JoinPointer.respells names).of_list hj
        cases element with
        | none => simp [toJson, rebind, read, tagged?_tagged, tags, ofJson?_toJson, hj, readOptional]
        | some e =>
          obtain ⟨i, hi⟩ := exists_of_optional he
          have he : read more true (e.toJson names) = some (e.rebind (repath names)) := by
            apply ih hi
            rw [toJson, tagged_eq] at hm
            apply Nat.lt_of_lt_of_le _ (Nat.le_of_lt_succ hm)
            apply depth_lt_of_lookup "relationalElement"
            simp
          have he := readOptional_some (isNull_toJson _ e) he
          simp [toJson, rebind, read, tagged?_tagged, tags, ofJson?_toJson, hj, he]
      · cases h

theorem respells (names : Naming) (nested : Bool) :
    Respells (RelationalOperation.ofJson? nested) (RelationalOperation.toJson names)
      (RelationalOperation.rebind (repath names)) := by
  intro j o h
  exact read_toJson h (Nat.lt_succ_self _) nested

end RelationalOperation

theorem Join.respells (names : Naming) :
    Respells Join.ofJson? (Join.toJson names) (Join.rebind (repath names)) := by
  intro j t h
  simp only [Join.ofJson?, bind_eq_some, pure_eq_some] at h
  obtain ⟨r, -, name, -, operation, ho, rfl⟩ := h
  have ho := (RelationalOperation.respells names false).of_lookup ho
  simp [toJson, ofJson?, rebind, ofJson?_toJson, ho]

theorem nat64_rereads {n : Nat} (h : n < Nat.pow 2 64) : nat64? (ofNat n) = some n := by
  have hb : intBetween? 0 (Nat.pow 2 64 - 1 : Nat) (ofNat n) = some (n : Int) := by
    apply intBetween?_eq_some.mpr
    refine ⟨rfl, Int.natCast_nonneg n, ?_⟩
    omega
  rw [nat64?, hb]
  rfl

theorem optNat64_rereads {o : Option Nat} (h : ∀ n, o = some n → n < Nat.pow 2 64) :
    readOptional nat64? (o.map ofNat) = some o := by
  cases o with
  | none => rfl
  | some n => exact readOptional_some rfl (nat64_rereads (h n rfl))

theorem ColumnType.ofJson?_toJson {t : ColumnType} (h : t.IsStandard) :
    ofJson? t.toJson = some t := by
  have hs := optNat64_rereads fun n hn => h.bounded n (.inl hn)
  have hp := optNat64_rereads fun n hn => h.bounded n (.inr (.inl hn))
  have hc := optNat64_rereads fun n hn => h.bounded n (.inr (.inr hn))
  simp [toJson, ofJson?, Record.ofJson?_toJson, hs, hp, hc]

namespace Column

def standard (c : Column) : Column :=
  match ColumnType.ofText? c.dataType with
  | some t => { c with dataType := t.text }
  | none => c

end Column

namespace Table

def standard (t : Table) : Table := { t with columns := t.columns.map Column.standard }

end Table

namespace Schema

def standard (s : Schema) : Schema := { s with tables := s.tables.map Table.standard }

end Schema

namespace Database

def standard (d : Database) : Database := { d with schemas := d.schemas.map Schema.standard }

end Database

/-- What a writer that may fail has written is read as the standard form of what was written, and
the standard form is written alike. -/
def Settles {α ε : Type} (read : Json → Option α) (write : α → Except ε Json)
    (standard : α → α) : Prop :=
  ∀ {a j}, write a = .ok j → read j = some (standard a) ∧ write (standard a) = .ok j

section Settles

variable {α ε : Type} {read : Json → Option α} {write : α → Except ε Json} {standard : α → α}

theorem Settles.mapM (h : Settles read write standard) {as : List α} {items : List Json}
    (ha : as.mapM write = .ok items) :
    items.mapM read = some (as.map standard) ∧ (as.map standard).mapM write = .ok items := by
  induction as generalizing items with
  | nil =>
    cases ha
    exact ⟨rfl, rfl⟩
  | cons a as ih =>
    rw [List.mapM_cons] at ha
    obtain ⟨j, hj, ha⟩ := bind_eq_ok.mp ha
    obtain ⟨rest, hr, ha⟩ := bind_eq_ok.mp ha
    cases ha
    obtain ⟨hread, hwrite⟩ := h hj
    obtain ⟨hreads, hwrites⟩ := ih hr
    constructor
    · rw [List.mapM_cons, hread, hreads]
      rfl
    · rw [List.map_cons, List.mapM_cons, hwrite, hwrites]
      rfl

theorem Settles.of_list (h : Settles read write standard) {as : List α} {items : List Json}
    (ha : as.mapM write = .ok items) :
    readDefault [] (list? read) (listed items) = some (as.map standard) := by
  have hm := (h.mapM ha).1
  cases items with
  | nil => exact hm
  | cons j items => exact hm

end Settles

theorem Column.settles : Settles Column.ofJson? Column.toJson Column.standard := by
  intro c j h
  rw [toJson] at h
  cases ht : ColumnType.ofText? c.dataType with
  | none =>
    rw [ht] at h
    cases h
  | some t =>
    rw [ht] at h
    cases h
    have hstandard := ColumnType.isStandard_of_ofText? ht
    have hs : c.standard = { c with dataType := t.text } := by rw [standard, ht]
    rw [hs]
    constructor
    · simp [ofJson?, ofJson?_toJson, ColumnType.ofJson?_toJson hstandard]
    · simp [toJson, ColumnType.ofText?_text hstandard]

theorem Table.settles : Settles Table.ofJson? Table.toJson Table.standard := by
  intro t j h
  obtain ⟨columns, hc, h⟩ := bind_eq_ok.mp h
  cases h
  have hr := Column.settles.of_list hc
  have hk : readDefault [] (list? text?) (listed (t.primaryKey.map .str)) = some t.primaryKey :=
    readDefault_listed fun _ _ => rfl
  constructor
  · simp [ofJson?, ofJson?_toJson, hr, hk, standard]
  · rw [toJson, standard, (Column.settles.mapM hc).2]
    rfl

theorem Schema.settles : Settles Schema.ofJson? Schema.toJson Schema.standard := by
  intro s j h
  obtain ⟨tables, ht, h⟩ := bind_eq_ok.mp h
  cases h
  have hr := Table.settles.of_list ht
  constructor
  · simp [ofJson?, ofJson?_toJson, hr, standard]
  · rw [toJson, standard, (Table.settles.mapM ht).2]
    rfl

/-- A database that is written is read as one with standard column types, and with the paths by
which its references were written. -/
theorem Database.respells {names : Naming} {i j : Json} {d : Database} (h : ofJson? i = some d)
    (hj : d.toJson names = .ok j) : ofJson? j = some (d.rebind (repath names)).standard := by
  simp only [ofJson?, bind_eq_some, pure_eq_some, list_eq] at h
  obtain ⟨r, -, includes, hi, schemas, -, joins, hjoins, rfl⟩ := h
  obtain ⟨documents, hd, hj⟩ := bind_eq_ok.mp hj
  cases hj
  have hi := (Reference.respells names).of_list hi
  have hs := Schema.settles.of_list hd
  have hjoins := (Join.respells names).of_list hjoins
  simp [ofJson?, ofJson?_toJson, hi, hs, hjoins, rebind, standard]

theorem Database.toJson_standard {names : Naming} {j : Json} {d : Database}
    (hj : d.toJson names = .ok j) : d.standard.toJson names = .ok j := by
  obtain ⟨documents, hd, hj⟩ := bind_eq_ok.mp hj
  cases hj
  rw [toJson, standard, (Schema.settles.mapM hd).2]
  rfl

end ModelGraph
