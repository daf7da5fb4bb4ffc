import ModelGraph.Proofs.Differences
import ModelGraph.Proofs.DigestWords
import ModelGraph.Proofs.Writability

namespace ModelGraph

namespace Index

variable {α : Type} {x y : Index α}

theorem sorted_eq_iff : x.sorted = y.sorted ↔ ∀ e, e ∈ x.entries ↔ e ∈ y.entries := by
  constructor
  · intro h e
    rw [← x.perm_sorted.mem_iff, h, y.perm_sorted.mem_iff]
  · intro h
    exact sorted_eq_of_perm
      ((List.perm_ext_iff_of_nodup (x.nodup.of_map _) (y.nodup.of_map _)).mpr h)

end Index

namespace Diff

theorem between_eq_empty {x y : Index Digest} :
    between x y = {} ↔ ∀ e, e ∈ x.entries ↔ e ∈ y.entries := by
  rw [eq_empty_iff, isEmpty_between]
  constructor
  · rintro h ⟨p, d⟩
    rw [← Index.get?_eq_some_iff, h, Index.get?_eq_some_iff]
  · intro h p
    refine Option.ext fun d => ?_
    rw [Index.get?_eq_some_iff, h, Index.get?_eq_some_iff]

theorem ofGraphs_eq_empty {g g' : Graph} {x y : Index Digest} (hx : g.hashIndex.2 = .ok x.sorted)
    (hy : g'.hashIndex.2 = .ok y.sorted) :
    ofGraphs g g' = .ok {} ↔ g.hashIndex.2 = g'.hashIndex.2 := by
  rw [ofGraphs, hx, hy, ok_bind, ok_bind, pure_eq_ok, between_eq_empty, Except.ok.injEq,
    Index.sorted_eq_iff]
  simp only [x.perm_sorted.mem_iff, y.perm_sorted.mem_iff]

theorem ofGraphs_singleton {g g' : Graph} {p : Path} {d d' : Digest}
    (h : g.hashIndex.2 = .ok (Index.ofList [(p, d)]).sorted)
    (h' : g'.hashIndex.2 = .ok (Index.ofList [(p, d')]).sorted) (hne : d ≠ d') :
    ofGraphs g g' = .ok { modified := [p] } := by
  have hentries : ∀ d : Digest, (Index.ofList [(p, d)]).sorted.entries = [(p, d)] :=
    fun d => List.mergeSort_singleton _
  rw [ofGraphs, h, h', ok_bind, ok_bind]
  simp [between, hentries, Index.paths, Index.contains, Index.get?, Path.sort, hne, pure_eq_ok]

end Diff

/-- The text of a column type in the standard shape: what is read from it has the same text. -/
def ColumnType.IsSettled (text : String) : Prop := ∃ t, ofText? text = some t ∧ t.text = text

theorem Column.standard_eq {c : Column} (h : ColumnType.IsSettled c.dataType) :
    c.standard = c := by
  obtain ⟨t, ht, he⟩ := h
  rw [standard, ht]
  simp only [he]

theorem Database.standard_eq {d : Database} (h : ∀ t ∈ d.columnTypes, ColumnType.IsSettled t) :
    d.standard = d := by
  have hcolumns : ∀ s ∈ d.schemas, ∀ t ∈ s.tables, ∀ c ∈ t.columns, c.standard = c := by
    intro s hs t ht c hc
    apply Column.standard_eq
    apply h
    simp only [columnTypes, List.mem_flatMap, List.mem_map]
    exact ⟨s, hs, t, ht, c, hc, rfl⟩
  have htables : ∀ s ∈ d.schemas, ∀ t ∈ s.tables, t.standard = t := by
    intro s hs t ht
    rw [Table.standard, List.map_congr_left (hcolumns s hs t ht), List.map_id']
  have hschemas : ∀ s ∈ d.schemas, s.standard = s := by
    intro s hs
    rw [Schema.standard, List.map_congr_left (htables s hs), List.map_id']
  rw [standard, List.map_congr_left hschemas, List.map_id']

namespace Body

theorem standard_eq {b : Body} (h : ∀ t ∈ b.columnTypes, ColumnType.IsSettled t) :
    b.standard = b := by
  cases b with
  | database d => exact congrArg database (Database.standard_eq h)
  | _ => rfl

end Body

namespace Graph

variable {g g' g₁ g₁' : Graph} {r : Registry} {m n : Model} {contents contents' : List (Path × Body)}

theorem Finished.digest_standard (f : Finished contents g₁ g) {h : Handle} {e e₁ : Element}
    (hl : g.LiveAt h e) (hl₁ : g₁.LiveAt h e₁) :
    e₁.body.hull.standard.digest e.path = e.body.standard.digest e.path := by
  have hlinks : ∀ l ∈ e₁.body.standard.links, (g₁.bind.onLink l).path = l.path :=
    fun l _ => path_onLink_bind g₁ l
  have hunwire : e.body.standard.unwire = (e₁.body.standard.rebind g₁.bind).unwire := by
    rw [Body.unwire_standard, f.unwire_body_eq hl hl₁, ← Body.unwire_standard, Body.standard_rebind]
  have hhull : e₁.body.hull.standard = e₁.body.standard.hull := by
    cases e₁.body <;> rfl
  rw [Body.digest_of_unwire hunwire, Body.digest_rebind hlinks, hhull, Body.hull,
    Body.digest_mapChildren]

theorem Finished.mem_digests_standard (f : Finished contents g₁ g) (f' : Finished contents' g₁' g')
    (hc : ∀ c ∈ contents, c.2.IsContent) (hc' : ∀ c ∈ contents', c.2.IsContent)
    (hs : Standardizes contents contents') {p : Path} {d : Digest} : (p, d) ∈ g'.digests ↔
      ∃ h e, g.LiveAt h e ∧ isModelled e.kind = true ∧ e.path = p ∧
        e.body.standard.digest p = d := by
  have hcontents : (∃ b', (p, b') ∈ contents' ∧ b'.digest p = d) ↔
      ∃ b, (p, b) ∈ contents ∧ b.standard.digest p = d := by
    simp only [hs p]
    constructor
    · rintro ⟨_, ⟨b, hb, rfl⟩, hd⟩
      exact ⟨b, hb, hd⟩
    · rintro ⟨b, hb, hd⟩
      exact ⟨_, ⟨b, hb, rfl⟩, hd⟩
  rw [f'.mem_digests hc', hcontents, f.exists_content_iff hc]
  constructor
  · rintro ⟨h, e, e₁, hl, hl₁, hm, rfl, rfl⟩
    exact ⟨h, e, hl, hm, rfl, (f.digest_standard hl hl₁).symm⟩
  · rintro ⟨h, e, hl, hm, rfl, rfl⟩
    obtain ⟨e₁, hl₁, -⟩ := f.gained hl
    exact ⟨h, e, e₁, hl, hl₁, hm, rfl, f.digest_standard hl hl₁⟩

theorem sorted_digests_eq_iff (w : g.WellFormed) (w' : g'.WellFormed) :
    (Index.ofList g.digests).sorted = (Index.ofList g'.digests).sorted ↔
      ∀ p d, (p, d) ∈ g.digests ↔ (p, d) ∈ g'.digests := by
  rw [Index.sorted_eq_iff, Index.entries_ofList (nodup_digests w),
    Index.entries_ofList (nodup_digests w'), Prod.forall]

/-- The bodies of a graph have the digests of their standard shapes just if a graph that has these has
no other digests. -/
theorem digests_eq_iff (w : g.WellFormed) (hd : ∀ p d, (p, d) ∈ g'.digests ↔
      ∃ h e, g.LiveAt h e ∧ isModelled e.kind = true ∧ e.path = p ∧
        e.body.standard.digest p = d) :
    (∀ p d, (p, d) ∈ g.digests ↔ (p, d) ∈ g'.digests) ↔
      ∀ h e, g.LiveAt h e → e.body.standard.digest e.path = e.body.digest e.path := by
  constructor
  · intro heq h e hl
    by_cases hm : isModelled e.kind = true
    · have hmem := (heq _ _).mpr ((hd _ _).mpr ⟨h, e, hl, hm, rfl, rfl⟩)
      obtain ⟨h', e', hl', -, hp, hfresh⟩ := (mem_digests w).mp hmem
      obtain rfl := w.handle_eq hl' hl hp
      rw [← hfresh, hl'.unique hl]
      rfl
    · cases hbody : e.body with
      | database d =>
        rw [Element.kind, hbody] at hm
        exact absurd rfl hm
      | _ => rfl
  · intro heq p d
    rw [mem_digests w, hd]
    constructor
    · rintro ⟨h, e, hl, hm, rfl, rfl⟩
      exact ⟨h, e, hl, hm, rfl, heq h e hl⟩
    · rintro ⟨h, e, hl, hm, rfl, rfl⟩
      exact ⟨h, e, hl, hm, rfl, (heq h e hl).symm⟩

/-- A graph that is built of what another one is written as has the digests of the bodies of this
one in their standard shape. There is no difference between the two just where the standard shape has
the digest of the body itself, which it has where all texts of column types are settled. -/
theorem hashIndex_of_rebuild {ps : List Preset} (hr : Preset.registry ps = .ok r)
    {freeze freeze' : Bool} (hb : build r freeze m = .ok g) (hn : g.toModel = .ok n)
    (hb' : build r freeze' n = .ok g') :
    (∀ p d, (p, d) ∈ g'.digests ↔ ∃ h e, g.LiveAt h e ∧ isModelled e.kind = true ∧ e.path = p ∧
        e.body.standard.digest p = d) ∧
      (g.hashIndex.2 = g'.hashIndex.2 ↔
        ∀ h e, g.LiveAt h e → e.body.standard.digest e.path = e.body.digest e.path) ∧
      (Diff.ofGraphs g g' = .ok {} ↔ g.hashIndex.2 = g'.hashIndex.2) ∧
      ((∀ h e, g.LiveAt h e → ∀ t ∈ e.body.columnTypes, ColumnType.IsSettled t) →
        g.hashIndex.2 = g'.hashIndex.2) := by
  obtain ⟨entries, contents, g₁, p⟩ := prepared_of_build hb
  have f := p.finished hb
  have hregistry : g.registry = r := f.registry_eq.trans p.registry_eq
  have w : Writes r contents n := by
    have w := f.writes (hregistry.symm ▸ hr) p.isContent hn
    rwa [hregistry] at w
  obtain ⟨entries', contents', g₁', p', hs, -⟩ := p.rebuild hr w
  have f' := p'.finished hb'
  have hdigests := fun q d => f.mem_digests_standard f' p.isContent p'.isContent hs (p := q) (d := d)
  have hequal : g.hashIndex.2 = g'.hashIndex.2 ↔
      ∀ h e, g.LiveAt h e → e.body.standard.digest e.path = e.body.digest e.path := by
    rw [hashIndex_of_build hb, hashIndex_of_build hb', Except.ok.injEq,
      sorted_digests_eq_iff f.wellFormed f'.wellFormed, digests_eq_iff f.wellFormed hdigests]
  refine ⟨hdigests, hequal,
    Diff.ofGraphs_eq_empty (hashIndex_of_build hb) (hashIndex_of_build hb'), ?_⟩
  intro hsettled
  refine hequal.mpr fun h e hl => ?_
  rw [Body.standard_eq (hsettled h e hl)]

def decimalEntity : Entity where
  path := ⟨"A"⟩
  classifier := "meta::relational::metamodel::Database"
  content := .obj [("_type", .str "relational"), ("name", .str "A"), ("schemas", .arr [.obj [
    ("name", .str "s"), ("tables", .arr [.obj [("columns", .arr [.obj [("name", .str "c"),
      ("nullable", .bool true), ("type", .obj [("_type", .str "Decimal"), ("precision", .ofNat 10),
        ("scale", .ofNat 2)])]]), ("name", .str "t")]])]])]

theorem toModel_decimal :
    (columnGraph [("A", "Decimal(10, 2)")]).toModel = .ok [decimalEntity] := by
  have hentities : (columnGraph [("A", "Decimal(10, 2)")]).live.mapM
      (fun l => (columnGraph [("A", "Decimal(10, 2)")]).entity? l.2) =
        .ok (List.replicate 12 none ++ [some decimalEntity]) := rfl
  rw [toModel, hentities]
  exact congrArg Except.ok (List.mergeSort_singleton _)

theorem hashIndex_of_rebuild_column :
    (columnGraph [("A", "Decimal(10, 2)")]).hashIndex.2 =
        (columnGraph [("A", "Decimal(10,2)")]).hashIndex.2 ↔
      ∀ h e, (columnGraph [("A", "Decimal(10, 2)")]).LiveAt h e →
        e.body.standard.digest e.path = e.body.digest e.path := by
  have hb : build Preset.full false [columnEntity "A" "Decimal(10, 2)"] =
      .ok (columnGraph [("A", "Decimal(10, 2)")]) := rfl
  have hb' : build Preset.full false [decimalEntity] =
      .ok (columnGraph [("A", "Decimal(10,2)")]) := rfl
  exact (hashIndex_of_rebuild Preset.registry_all hb toModel_decimal hb').2.1

def columnDatabase (type : String) : Database where
  schemas := [{ name := "s", tables :=
    [{ name := "t", columns := [{ name := "c", dataType := type, nullable := true }] }] }]

theorem ofGraphs_decimal : ∃ g g', build Preset.full false [columnEntity "A" "Decimal(10, 2)"] = .ok g ∧
    g.toModel = .ok [decimalEntity] ∧ build Preset.full false [decimalEntity] = .ok g' ∧
    Diff.ofGraphs g g' = .ok { modified := [⟨"A"⟩] } := by
  have hb : build Preset.full false [columnEntity "A" "Decimal(10, 2)"] =
      .ok (columnGraph [("A", "Decimal(10, 2)")]) := rfl
  have hb' : build Preset.full false [decimalEntity] =
      .ok (columnGraph [("A", "Decimal(10,2)")]) := rfl
  refine ⟨_, _, hb, toModel_decimal, hb', ?_⟩
  have hdigests : (columnGraph [("A", "Decimal(10, 2)")]).digests =
      [(⟨"A"⟩, ((columnDatabase "Decimal(10, 2)").hashInput ⟨"A"⟩).digest)] := rfl
  have hdigests' : (columnGraph [("A", "Decimal(10,2)")]).digests =
      [(⟨"A"⟩, ((columnDatabase "Decimal(10,2)").hashInput ⟨"A"⟩).digest)] := rfl
  refine Diff.ofGraphs_singleton (hdigests ▸ hashIndex_of_build hb)
    (hdigests' ▸ hashIndex_of_build hb') ?_
  simp only [columnDatabase, Database.hashInput, Schema.digest, Schema.hashInput, Table.digest,
    Table.hashInput, Column.digest, Column.hashInput, List.map_cons, List.map_nil,
    HashInput.digest_eq_hashNumbers]
  decide +kernel

end Graph
end ModelGraph
