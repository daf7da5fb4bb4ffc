import ModelGraph.Proofs.EntityOrder
import ModelGraph.Proofs.FixedPoint
import ModelGraph.Proofs.Mismatches
import ModelGraph.Proofs.SpelledEntities

namespace ModelGraph

open ModelGraph.Graph

namespace Json

mutual

theorem inOrder_normal (j : Json) : j.normal.InOrder := by
  match j with
  | .arr items => exact inOrder_arr.mpr (inOrder_of_mem_normalItems items)
  | .obj members =>
    exact inOrder_obj.mpr ⟨ordered_sortMembers _, fun m hm =>
      inOrder_of_mem_normalMembers members m (mem_of_mem_sortMembers hm)⟩
  | .null => rfl
  | .bool _ => rfl
  | .num _ => rfl
  | .str _ => rfl

theorem inOrder_of_mem_normalItems (items : List Json) : ∀ i ∈ normalItems items, i.InOrder := by
  match items with
  | [] => exact List.forall_mem_nil _
  | j :: items =>
    exact List.forall_mem_cons.mpr ⟨inOrder_normal j, inOrder_of_mem_normalItems items⟩

theorem inOrder_of_mem_normalMembers (members : List (String × Json)) :
    ∀ m ∈ normalMembers members, m.2.InOrder := by
  match members with
  | [] => exact List.forall_mem_nil _
  | (k, v) :: members =>
    exact List.forall_mem_cons.mpr ⟨inOrder_normal v, inOrder_of_mem_normalMembers members⟩

end

end Json

/-- The content of an entity that is read is in order. -/
theorem Entity.inOrder_of_read {j : Json} {e : Entity} (h : ofJson? j = some e) :
    e.content.InOrder := by
  have hparts : ∀ {path classifier content : Json}, ofParts? path classifier content = some e →
      e.content.InOrder := by
    intro path classifier content h
    simp only [ofParts?, bind_eq_some, pure_eq_some] at h
    obtain ⟨p, -, c, -, rfl⟩ := h
    exact Json.inOrder_normal content
  rw [ofJson?.eq_def] at h
  split at h
  · simp only [bind_eq_some] at h
    obtain ⟨path, -, classifier, -, content, -, h⟩ := h
    exact hparts h
  · exact hparts h
  · cases h

variable {r : Registry} {m n : Model} {entries : List Entry} {contents : List (Path × Body)}
  {g g₁ : Graph}

/-- What is written of an entity of a build stands at its path and under its classifier, and agrees
with it exactly if it is spelled as contents are written. -/
theorem Graph.Prepared.told {ps : List Preset} (hr : Preset.registry ps = .ok r)
    (p : Prepared r m entries contents g₁) (w : Writes r contents n) {e : Entity} (he : e ∈ m)
    (ho : e.content.InOrder) : ∃ v ∈ n, v.path = e.path ∧ v.classifier = e.classifier ∧
      (v.canonical.agrees e.canonical = true ↔ e.isSpelled = true) := by
  rw [← p.entities] at he
  obtain ⟨entry, hentry, rfl⟩ := List.mem_map.mp he
  obtain ⟨⟨q, b⟩, hcontent⟩ := exists_of_mapM_ok p.contents_eq entry hentry
  obtain ⟨hbody, hpath⟩ := Entry.content_eq_ok.mp hcontent
  simp only at hbody hpath
  subst hpath
  have hmem := (mem_of_mapM_ok p.contents_eq).mpr ⟨_, hentry, hcontent⟩
  obtain ⟨v, hv, hwritten, -⟩ := w.written _ b hmem
  have hpasses := p.passes entry hentry
  have hrestated := Entry.restated hr hpasses.kind hpasses.path hbody hwritten
  refine ⟨v, hv, hrestated.path, hrestated.classifier, ?_⟩
  rw [← Entry.told hr hpasses.kind hpasses.header ho hbody hwritten, Entity.agrees_iff]
  exact ⟨fun h => h.2.2, fun h => ⟨hrestated.path, hrestated.classifier, h⟩⟩

theorem Graph.Prepared.paths_perm (p : Prepared r m entries contents g₁) (w : Writes r contents n) :
    (n.map Entity.path).Perm (m.map Entity.path) := by
  apply (List.perm_ext_iff_of_nodup w.nodup p.nodup).mpr
  intro q
  constructor
  · intro hq
    obtain ⟨v, hv, rfl⟩ := List.mem_map.mp hq
    obtain ⟨b, hb, -⟩ := w.content v hv
    obtain ⟨entry, hentry, hcontent⟩ := (mem_of_mapM_ok p.contents_eq).mp hb
    obtain ⟨-, hpath⟩ := Entry.content_eq_ok.mp hcontent
    rw [← p.entities, List.map_map]
    exact List.mem_map.mpr ⟨entry, hentry, hpath⟩
  · intro hq
    rw [← p.entities, List.map_map] at hq
    obtain ⟨entry, hentry, rfl⟩ := List.mem_map.mp hq
    obtain ⟨⟨q, b⟩, hcontent⟩ := exists_of_mapM_ok p.contents_eq entry hentry
    obtain ⟨-, hpath⟩ := Entry.content_eq_ok.mp hcontent
    obtain ⟨v, hv, -, hv'⟩ := w.written q b ((mem_of_mapM_ok p.contents_eq).mpr ⟨_, hentry, hcontent⟩)
    exact List.mem_map.mpr ⟨v, hv, hv'.trans hpath.symm⟩

/-- Models with the same paths match where what stands at the same path agrees. -/
theorem mismatches_eq_nil (hn : (n.map Entity.path).Nodup)
    (hp : (n.map Entity.path).Perm (m.map Entity.path)) : m.mismatches n = [] ↔
      ∀ e ∈ m, ∀ v ∈ n, v.path = e.path → v.canonical.agrees e.canonical = true := by
  rw [mismatches_eq_nil_iff hn]
  constructor
  · intro h e he v hv hpath
    rw [Entity.agrees_comm]
    exact Bool.of_not_eq_false fun hc => h _ (.changed (mem_canonical.mpr ⟨e, he, rfl⟩)
      (mem_canonical.mpr ⟨v, hv, rfl⟩) hpath hc)
  · intro h x hx
    cases hx with
    | missing hc hmissing =>
      obtain ⟨e, he, rfl⟩ := mem_canonical.mp hc
      exact hmissing (mem_paths_canonical.mpr (hp.mem_iff.mpr (List.mem_map.mpr ⟨e, he, rfl⟩)))
    | changed hc ha hpath hagrees =>
      obtain ⟨e, he, rfl⟩ := mem_canonical.mp hc
      obtain ⟨v, hv, rfl⟩ := mem_canonical.mp ha
      rw [Entity.agrees_comm, h e he v hv hpath] at hagrees
      cases hagrees
    | unexpected ha hmissing =>
      obtain ⟨v, hv, rfl⟩ := mem_canonical.mp ha
      exact hmissing (mem_paths_canonical.mpr (hp.mem_iff.mp (List.mem_map.mpr ⟨v, hv, rfl⟩)))

/-- A model that is built and written again comes back with an entity for each entity, at its path
and under its classifier. It agrees with the former one exactly if that one is spelled as contents
are written, and the round trip finds no mismatch exactly if all of them are. -/
theorem mismatches_of_toModel {ps : List Preset} (hr : Preset.registry ps = .ok r) {freeze : Bool}
    (ho : ∀ e ∈ m, e.content.InOrder) (hb : build r freeze m = .ok g) (hn : g.toModel = .ok n) :
    (n.map Entity.path).Perm (m.map Entity.path) ∧
      (∀ e ∈ m, ∃ v ∈ n, v.path = e.path ∧ v.classifier = e.classifier ∧
        (v.canonical.agrees e.canonical = true ↔ e.isSpelled = true)) ∧
      (m.mismatches n = [] ↔ ∀ e ∈ m, e.isSpelled = true) := by
  obtain ⟨entries, contents, g₁, p⟩ := prepared_of_build hb
  have hregistry : g.registry = r := (p.finished hb).registry_eq.trans p.registry_eq
  have w : Writes r contents n := by
    have w := (p.finished hb).writes (hregistry.symm ▸ hr) p.isContent hn
    rwa [hregistry] at w
  have htold := fun e he => p.told hr w he (ho e he)
  refine ⟨p.paths_perm w, htold, ?_⟩
  rw [mismatches_eq_nil w.nodup (p.paths_perm w)]
  apply forall₂_congr
  intro e he
  obtain ⟨v, hv, hpath, -, hagrees⟩ := htold e he
  rw [← hagrees]
  refine ⟨fun h => h v hv hpath, fun h v' hv' hpath' => ?_⟩
  rwa [List.inj_on_of_nodup_map w.nodup hv' hv (hpath'.trans hpath.symm)]

/-- A database with one column of a type. -/
def typedEntity (type : List (String × Json)) : Entity where
  path := ⟨"A"⟩
  classifier := "meta::relational::metamodel::Database"
  content := .obj [("_type", .str "relational"), ("name", .str "A"), ("schemas", .arr [.obj [
    ("name", .str "s"), ("tables", .arr [.obj [("columns", .arr [.obj [("name", .str "c"),
      ("nullable", .bool true), ("type", .obj type)]]), ("name", .str "t")]])]])]

theorem toModel_sized : (columnGraph [("A", "Decimal(5)")]).toModel =
    .ok [typedEntity [("_type", .str "Decimal"), ("size", .ofNat 5)]] := by
  have hentities : (columnGraph [("A", "Decimal(5)")]).live.mapM
      (fun l => (columnGraph [("A", "Decimal(5)")]).entity? l.2) =
        .ok (List.replicate 12 none ++
          [some (typedEntity [("_type", .str "Decimal"), ("size", .ofNat 5)])]) := rfl
  rw [toModel, hentities]
  exact congrArg Except.ok (List.mergeSort_singleton _)

theorem mismatches_of_toModel_sized : ∃ g n,
    build Preset.full false [typedEntity [("_type", .str "Decimal"), ("size", .ofNat 5)]] = .ok g ∧
      g.toModel = .ok n ∧
      Model.mismatches [typedEntity [("_type", .str "Decimal"), ("size", .ofNat 5)]] n = [] := by
  have hb : build Preset.full false [typedEntity [("_type", .str "Decimal"), ("size", .ofNat 5)]] =
      .ok (columnGraph [("A", "Decimal(5)")]) := rfl
  have ho : ∀ e ∈ [typedEntity [("_type", .str "Decimal"), ("size", .ofNat 5)]],
      e.content.InOrder :=
    List.forall_mem_singleton.mpr rfl
  obtain ⟨-, -, h⟩ := mismatches_of_toModel Preset.registry_all ho hb toModel_sized
  exact ⟨_, _, hb, toModel_sized, h.mpr (List.forall_mem_singleton.mpr rfl)⟩

example : (partyEntity [("package", .str "")]).isSpelled = false := rfl

/-- The precision of a column type is lost where a size stands beside it: the text that is kept of
the type shows the size alone. -/
theorem mismatch_precision : ∃ g n,
    build Preset.full false [typedEntity
      [("_type", .str "Decimal"), ("precision", .ofNat 10), ("size", .ofNat 5)]] = .ok g ∧
    g.toModel = .ok n ∧
    Model.mismatches [typedEntity
      [("_type", .str "Decimal"), ("precision", .ofNat 10), ("size", .ofNat 5)]] n ≠ [] := by
  refine ⟨columnGraph [("A", "Decimal(5)")], _, rfl, toModel_sized, ?_⟩
  rw [Model.mismatches, Model.canonical, Model.sorted, List.map_singleton, List.mergeSort_singleton,
    Model.canonical, Model.sorted, List.map_singleton, List.mergeSort_singleton]
  decide

end ModelGraph
