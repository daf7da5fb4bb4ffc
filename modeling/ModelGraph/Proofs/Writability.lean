import ModelGraph.Proofs.EntityOrder

namespace ModelGraph

/-- The texts of the types of all columns, in order. -/
def Database.columnTypes (d : Database) : List String :=
  d.schemas.flatMap fun s => s.tables.flatMap fun t => t.columns.map Column.dataType

def Body.columnTypes : Body → List String
  | .database d => d.columnTypes
  | _ => []

/-- A writer succeeds when it can read all the texts of column types, and otherwise it reports one
that it can't read. -/
structure Reports {α : Type} (write : α → Except BadColumnType Json)
    (types : α → List String) : Prop where
  ok : ∀ {a j}, write a = .ok j → ∀ t ∈ types a, (ColumnType.ofText? t).isSome
  error : ∀ {a bad}, write a = .error bad →
    bad.dataType ∈ types a ∧ ColumnType.ofText? bad.dataType = none

namespace Reports

variable {α : Type} {write : α → Except BadColumnType Json} {types : α → List String}

theorem mapM_ok (h : Reports write types) {as : List α} {js : List Json}
    (hj : as.mapM write = .ok js) : ∀ t ∈ as.flatMap types, (ColumnType.ofText? t).isSome := by
  intro t ht
  obtain ⟨a, ha, ht⟩ := List.mem_flatMap.mp ht
  obtain ⟨j, hj⟩ := exists_of_mapM_ok hj a ha
  exact h.ok hj t ht

theorem mapM_error (h : Reports write types) {as : List α} {bad : BadColumnType}
    (hb : as.mapM write = .error bad) :
    bad.dataType ∈ as.flatMap types ∧ ColumnType.ofText? bad.dataType = none := by
  obtain ⟨x, hx, he⟩ := List.mem_filterMap.mp (List.mem_of_mem_head? (mapM_eq_error.mp hb))
  obtain ⟨a, ha, rfl⟩ := List.mem_map.mp hx
  cases hw : write a with
  | ok j =>
    rw [hw] at he
    cases he
  | error bad' =>
    rw [hw] at he
    cases he
    obtain ⟨hm, hn⟩ := h.error hw
    exact ⟨List.mem_flatMap.mpr ⟨a, ha, hm⟩, hn⟩

theorem of_parts {β : Type} (h : Reports write types) {parts : β → List α}
    {whole : β → List Json → Json} {write' : β → Except BadColumnType Json}
    (hw : ∀ b, write' b = do return whole b (← (parts b).mapM write)) :
    Reports write' fun b => (parts b).flatMap types := by
  constructor
  · intro b j hj
    rw [hw] at hj
    obtain ⟨js, hjs, -⟩ := bind_eq_ok.mp hj
    exact h.mapM_ok hjs
  · intro b bad hb
    rw [hw] at hb
    rcases bind_eq_error.mp hb with hb | ⟨js, -, hb⟩
    · exact h.mapM_error hb
    · cases hb

end Reports

theorem Column.reports : Reports Column.toJson fun c => [c.dataType] := by
  constructor
  · intro c j h t ht
    rw [List.mem_singleton.mp ht]
    rw [toJson] at h
    cases hc : ColumnType.ofText? c.dataType with
    | none =>
      rw [hc] at h
      cases h
    | some t => rfl
  · intro c bad h
    rw [toJson] at h
    cases hc : ColumnType.ofText? c.dataType with
    | none =>
      rw [hc] at h
      cases h
      exact ⟨List.mem_singleton_self _, hc⟩
    | some t =>
      rw [hc] at h
      cases h

theorem Database.reports (names : Naming) :
    Reports (Database.toJson names) Database.columnTypes := by
  have htable : Reports Table.toJson fun t => t.columns.flatMap fun c => [c.dataType] :=
    Column.reports.of_parts fun _ => rfl
  have hschema : Reports Schema.toJson fun s => s.tables.flatMap fun t =>
      t.columns.flatMap fun c => [c.dataType] := htable.of_parts fun _ => rfl
  have h : Reports (Database.toJson names) fun d => d.schemas.flatMap fun s =>
      s.tables.flatMap fun t => t.columns.flatMap fun c => [c.dataType] :=
    hschema.of_parts fun _ => rfl
  have he : columnTypes = fun d => d.schemas.flatMap fun s => s.tables.flatMap fun t =>
      t.columns.flatMap fun c => [c.dataType] := by
    funext d
    simp only [columnTypes, List.map_eq_flatMap]
  rwa [he]

namespace Body

@[simp]
theorem columnTypes_rebind (f : Rebinding) (b : Body) :
    (b.rebind f).columnTypes = b.columnTypes := by
  cases b <;> rfl

@[simp]
theorem columnTypes_unwire (b : Body) : b.unwire.columnTypes = b.columnTypes := by
  cases b <;> rfl

@[simp]
theorem columnTypes_hull (b : Body) : b.hull.columnTypes = b.columnTypes := by
  cases b <;> rfl

end Body

open ModelGraph.Graph

theorem entity_ok {e : Element} {classifier type : String} (s : Record) :
    ∃ o, (entity e classifier type s.toJson).map some = .ok o := by
  rw [entity_toJson]
  exact ⟨_, rfl⟩

section Entries

variable {ps : List Preset} {r : Registry} (hr : Preset.registry ps = .ok r) {e : Entry} {b : Body}
  (hk : EntryKind.ofPath? r e.entity.classifier = some e.kind) (hb : e.body r = .ok b)
include hr hk hb

/-- What is written, under any naming, for a body that was read, if it is no database. -/
theorem Entry.entity?_of_body (hd : ∀ d, b ≠ .database d) (names : Naming) (q : Path) :
    ∃ o, (bare r).entity? (.placed q (b.spelled names)) = .ok o := by
  obtain ⟨entity, kind⟩ := e
  cases kind with
  | extension k =>
    obtain ⟨hk, -⟩ := EntryKind.mem_of_ofPath? hk
    obtain ⟨x, hx, rfl⟩ := Option.map_eq_some_iff.mp (require_eq_ok.mp hb)
    obtain ⟨htag, hrestates⟩ := Preset.restates_kind hr hk hx
    obtain ⟨s, -, hwrite, -⟩ := hrestates names
    have hspelled : (Body.extension x).spelled names = .extension (x.rebind (spell names)) := rfl
    rw [hspelled, entity?]
    simp only [Element.placed, extensionEntity, registry_bare, Extension.kind_rebind, htag,
      Preset.kind?_tag hr hk, referencePath_bare, Preset.write_spell hr hk, hwrite, mapError_ok,
      ok_bind]
    exact entity_ok s
  | core c =>
    cases c with
    | database =>
      obtain ⟨d, -, rfl⟩ := Option.map_eq_some_iff.mp (require_eq_ok.mp hb)
      exact absurd rfl (hd d)
    | mapping =>
      obtain ⟨m, hm, rfl⟩ := map_eq_ok.mp hb
      obtain ⟨document, hj, ⟨s, rfl, -⟩, -⟩ := mapping_restated hr names hm
      have hspelled : (Body.mapping m).spelled names = .mapping (m.spelled names) := rfl
      rw [hspelled, entity?]
      simp only [Element.placed, hj]
      exact entity_ok s
    | _ =>
      obtain ⟨x, -, rfl⟩ := Option.map_eq_some_iff.mp (require_eq_ok.mp hb)
      exact entity_ok _

/-- An entry is written, under any naming, unless its body is a database with a column type that
can't be read. -/
theorem Entry.entity?_or (names : Naming) (q : Path) :
    ((∃ o, (bare r).entity? (.placed q (b.spelled names)) = .ok o) ∧
        ∀ t ∈ b.columnTypes, (ColumnType.ofText? t).isSome) ∨
      ∃ t ∈ b.columnTypes, ColumnType.ofText? t = none ∧
        (bare r).entity? (.placed q (b.spelled names)) = .error (.invalidColumnType q t) := by
  by_cases hd : ∃ d, b = .database d
  · obtain ⟨d, rfl⟩ := hd
    have hspelled : (Body.database d).spelled names = .database (d.rebind (spell names)) := rfl
    rw [hspelled]
    cases hj : d.toJson names with
    | ok document =>
      refine .inl ⟨?_, (Database.reports _).ok hj⟩
      obtain ⟨s, rfl, -⟩ := isDocument_database hj
      rw [entity?_database ((d.toJson_spell names).trans hj)]
      exact entity_ok s
    | error bad =>
      obtain ⟨hm, hn⟩ := (Database.reports _).error hj
      exact .inr ⟨bad.dataType, hm, hn, entity?_unwritable ((d.toJson_spell names).trans hj)⟩
  · have hd : ∀ d, b ≠ .database d := fun d he => hd ⟨d, he⟩
    refine .inl ⟨entity?_of_body hr hk hb hd names q, ?_⟩
    cases b with
    | database d => exact absurd rfl (hd d)
    | _ => exact fun t ht => absurd ht List.not_mem_nil

end Entries

namespace Graph

variable {g g₁ : Graph} {r : Registry} {m : Model} {entries : List Entry}
  {contents : List (Path × Body)}

theorem Finished.columnTypes_eq (f : Finished contents g₁ g) {h : Handle} {e e₁ : Element}
    (hl : g.LiveAt h e) (hl₁ : g₁.LiveAt h e₁) :
    e.body.columnTypes = e₁.body.hull.columnTypes := by
  rw [← Body.columnTypes_unwire, f.unwire_body_eq hl hl₁, Body.columnTypes_unwire,
    Body.columnTypes_rebind, Body.columnTypes_hull]

/-- An element of a built graph is written unless it holds a column type that can't be read. -/
theorem entity?_of_build {ps : List Preset} (hr : Preset.registry ps = .ok r) {freeze : Bool}
    (hb : build r freeze m = .ok g) {h : Handle} {e : Element} (hl : g.LiveAt h e) :
    ((∃ o, g.entity? e = .ok o) ∧ ∀ t ∈ e.body.columnTypes, (ColumnType.ofText? t).isSome) ∨
      ∃ t ∈ e.body.columnTypes, ColumnType.ofText? t = none ∧
        g.entity? e = .error (.invalidColumnType e.path t) := by
  obtain ⟨entries, contents, g₁, p⟩ := prepared_of_build hb
  have f := p.finished hb
  have hg : g.registry = r := f.registry_eq.trans p.registry_eq
  obtain ⟨e₁, hl₁, hpath, hs⟩ := f.gained hl
  rw [f.entity?_eq hl hl₁ (hg ▸ hr), f.columnTypes_eq hl hl₁, hg, ← hpath]
  by_cases hc : e₁.body.hull.IsContent
  · obtain ⟨entry, hentry, hcontent⟩ := (mem_of_mapM_ok p.contents_eq).mp (hs.mem hc)
    obtain ⟨hbody, hp⟩ := Entry.content_eq_ok.mp hcontent
    simp only at hbody hp
    rw [← hp, ← entity?_spelled_path hr]
    exact Entry.entity?_or hr (p.passes entry hentry).kind hbody Link.path entry.entity.path
  · refine .inl ⟨⟨none, entity?_of_not_content hc⟩, ?_⟩
    intro t ht
    cases hbody : e₁.body.hull with
    | database d =>
      rw [hbody] at hc
      exact absurd ⟨Kind.noConfusion, Kind.noConfusion⟩ hc
    | _ =>
      rw [hbody] at ht
      exact absurd ht List.not_mem_nil

/-- What a build has made can be written just when every column type can be read from its text. If
one can't be read, such a type is what is reported. -/
theorem toModel_of_build {ps : List Preset} (hr : Preset.registry ps = .ok r) {freeze : Bool}
    (hb : build r freeze m = .ok g) :
    ((∃ n, g.toModel = .ok n) ↔
        ∀ h e, g.LiveAt h e → ∀ t ∈ e.body.columnTypes, (ColumnType.ofText? t).isSome) ∧
      ∀ fault, g.toModel = .error fault → ∃ h e t, g.LiveAt h e ∧ t ∈ e.body.columnTypes ∧
        ColumnType.ofText? t = none ∧ fault = .invalidColumnType e.path t := by
  have hwf : g.WellFormed := by
    obtain ⟨_, _, _, p⟩ := prepared_of_build hb
    exact (p.finished hb).wellFormed
  refine ⟨⟨?_, ?_⟩, ?_⟩
  · rintro ⟨n, hn⟩ h e hl
    obtain ⟨o, ho⟩ := exists_entity?_of_toModel hwf hn hl
    rcases entity?_of_build hr hb hl with ⟨-, ht⟩ | ⟨t, -, -, he⟩
    · exact ht
    · rw [ho] at he
      cases he
  · intro ht
    have hlive : ∀ l ∈ g.live, ∃ o, g.entity? l.2 = .ok o := by
      rintro ⟨h, e⟩ hl
      have hl := (mem_live hwf).mp hl
      rcases entity?_of_build hr hb hl with ⟨ho, -⟩ | ⟨t, hm, hn, -⟩
      · exact ho
      · have hs := ht h e hl t hm
        rw [hn] at hs
        cases hs
    obtain ⟨os, hos⟩ := mapM_ok hlive
    exact ⟨_, by rw [toModel, hos]; rfl⟩
  · intro fault hf
    obtain ⟨x, hx, he⟩ := List.mem_filterMap.mp (List.mem_of_mem_head? (toModel_eq_error.mp hf))
    rw [map_snd_writings] at hx
    obtain ⟨⟨h, e⟩, hl, rfl⟩ := List.mem_map.mp hx
    have hl := (mem_live hwf).mp hl
    rcases entity?_of_build hr hb hl with ⟨⟨o, ho⟩, -⟩ | ⟨t, hm, hn, hfault⟩
    · simp only [ho] at he
      cases he
    · simp only [hfault] at he
      cases he
      exact ⟨h, e, t, hl, hm, hn, rfl⟩

theorem toModel_of_build_column :
    (∃ n, (columnGraph [("A", "Decimal(10,2)")]).toModel = .ok n) ∧
      ∃ h e t, (columnGraph [("A", "A(")]).LiveAt h e ∧ t ∈ e.body.columnTypes ∧
        ColumnType.ofText? t = none ∧
        WriteError.invalidColumnType ⟨"A"⟩ "A(" = .invalidColumnType e.path t := by
  have hb : build Preset.full false [columnEntity "A" "Decimal(10,2)"] =
      .ok (columnGraph [("A", "Decimal(10,2)")]) := rfl
  have hb' : build Preset.full false [columnEntity "A" "A("] = .ok (columnGraph [("A", "A(")]) :=
    rfl
  obtain ⟨_, _, _, p⟩ := prepared_of_build hb
  have hread : ∀ l ∈ (columnGraph [("A", "Decimal(10,2)")]).live,
      ∀ t ∈ l.2.body.columnTypes, (ColumnType.ofText? t).isSome := by decide
  constructor
  · refine (toModel_of_build Preset.registry_all hb).1.mpr fun h e hl => ?_
    exact hread (h, e) ((mem_live (p.finished hb).wellFormed).mpr hl)
  · exact (toModel_of_build Preset.registry_all hb').2 _ rfl

theorem toModel_unreadable : ∃ g, build Preset.full false [columnEntity "A" "A("] = .ok g ∧
    g.toModel = .error (.invalidColumnType ⟨"A"⟩ "A(") :=
  ⟨columnGraph [("A", "A(")], rfl, rfl⟩

end Graph
end ModelGraph
