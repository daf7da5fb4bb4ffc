import ModelGraph.Proofs.BuiltGraphs
import ModelGraph.Proofs.Differences

namespace ModelGraph.Graph

variable {g g' g₁ g₁' : Graph} {r : Registry} {m m' : Model} {entries entries' : List Entry}
  {contents contents' : List (Path × Body)}

theorem stock_iff_of_perm (hp : contents.Perm contents') {p : Path} {b : Body} :
    Stock contents p b ↔ Stock contents' p b :=
  ⟨.mono hp.subset, .mono hp.symm.subset⟩

theorem Compatible.perm (c : Compatible contents) (hp : contents.Perm contents') :
    Compatible contents' where
  nodup := (hp.map _).nodup_iff.mp c.nodup
  fault := fun x hx => c.fault x (hp.mem_iff.mpr hx)
  isContent := fun x hx => c.isContent x (hp.mem_iff.mpr hx)
  unique := fun p b b' hb hb' =>
    c.unique p b b' ((stock_iff_of_perm hp).mpr hb) ((stock_iff_of_perm hp).mpr hb')

theorem Stocked.resolved_of_perm (s : Stocked contents g) (s' : Stocked contents' g')
    (hp : contents.Perm contents') (hr : g.resolutionFaults = []) : g'.resolutionFaults = [] := by
  rw [s'.resolved_iff]
  intro p b hb l hl
  obtain ⟨t, ht, ha⟩ := s.resolved_iff.mp hr p b ((stock_iff_of_perm hp).mpr hb) l hl
  exact ⟨t, (stock_iff_of_perm hp).mp ht, ha⟩

theorem checkModel_of_perm (hm : m.Perm m') (hc : checkModel r m = .ok entries) :
    ∃ entries', checkModel r m' = .ok entries' ∧ entries.Perm entries' := by
  obtain ⟨hn, hentries⟩ := checkModel_eq_mapM.mp hc
  obtain ⟨entries', hentries', hp⟩ := mapM_ok_of_perm (hm.map _) hentries
  exact ⟨entries', checkModel_eq_mapM.mpr ⟨(hm.map _).nodup_iff.mp hn, hentries'⟩, hp⟩

theorem register_of_perm (hc : checkModel r m = .ok entries) (hc' : checkModel r m' = .ok entries')
    (hp : entries.Perm entries') (hd : (register entries (new r)).2 = []) :
    (register entries' (new r)).2 = [] := by
  obtain ⟨contents, hcontents, hcompatible⟩ := (register_eq_nil hc).mp hd
  obtain ⟨contents', hcontents', hperm⟩ := mapM_ok_of_perm (hp.map _) hcontents
  exact (register_eq_nil hc').mpr ⟨contents', hcontents', hcompatible.perm hperm⟩

theorem stocked_of_perm (hp : entries.Perm entries') (hr : register entries (new r) = (g, []))
    (hr' : register entries' (new r) = (g', [])) :
    ∃ contents contents', Stocked contents g ∧ Stocked contents' g' ∧ contents.Perm contents' := by
  have s := stocked_new r
  obtain ⟨contents, hcontents, hstocked, -⟩ := s.register (congrArg Prod.snd hr)
  obtain ⟨contents', hcontents', hstocked', -⟩ := s.register (congrArg Prod.snd hr')
  rw [hr] at hstocked
  rw [hr'] at hstocked'
  exact ⟨contents, contents', hstocked, hstocked',
    perm_of_mapM_ok (hp.map _) hcontents hcontents'⟩

theorem Prepared.perm (p : Prepared r m entries contents g₁)
    (p' : Prepared r m' entries' contents' g₁') (hm : m.Perm m') : contents.Perm contents' := by
  have hc := checkModel_eq_mapM.mp (checkModel_eq_ok.mpr ⟨p.entities, p.nodup, p.passes⟩)
  have hc' := checkModel_eq_mapM.mp (checkModel_eq_ok.mpr ⟨p'.entities, p'.nodup, p'.passes⟩)
  have hentries : entries.Perm entries' := perm_of_mapM_ok (hm.map _) hc.2 hc'.2
  exact perm_of_mapM_ok (hentries.map _) p.contents_eq p'.contents_eq

theorem Rejects.of_perm {phase : Phase} {ds : List Diagnostic} (h : Rejects r m phase ds)
    (hm : m.Perm m') : ∃ ds', Rejects r m' phase ds' := by
  cases h with
  | check hc =>
    cases hc' : checkModel r m' with
    | error ds' => exact ⟨ds', .check hc'⟩
    | ok entries' =>
      obtain ⟨entries, hentries, -⟩ := checkModel_of_perm hm.symm hc'
      rw [hc] at hentries
      cases hentries
  | registration hc hd =>
    obtain ⟨entries', hc', hp⟩ := checkModel_of_perm hm hc
    exact ⟨_, .registration hc' fun hd' => hd (register_of_perm hc' hc hp.symm hd')⟩
  | resolution hc hr hd =>
    obtain ⟨entries', hc', hp⟩ := checkModel_of_perm hm hc
    have hr' : register entries' (new r) = ((register entries' (new r)).1, []) :=
      Prod.ext rfl (register_of_perm hc hc' hp (congrArg Prod.snd hr))
    obtain ⟨contents, contents', s, s', hperm⟩ := stocked_of_perm hp hr hr'
    exact ⟨_, .resolution hc' hr' fun hd' => hd (s'.resolved_of_perm s hperm.symm hd')⟩

theorem mem_contentPaths {k : Kind} {p : Path} :
    p ∈ contentPaths contents k ↔ ∃ b, (p, b) ∈ contents ∧ b.kind = k := by
  simp [contentPaths]

theorem contentPaths_sublist (contents : List (Path × Body)) (k : Kind) :
    (contentPaths contents k).Sublist (contents.map Prod.fst) :=
  (List.filter_sublist).map Prod.fst

theorem Prepared.map_fst (p : Prepared r m entries contents g) :
    contents.map Prod.fst = m.map Entity.path := by
  rw [← p.entities, List.map_map]
  exact map_eq_of_mapM_ok p.contents_eq fun e c h => (Entry.content_eq_ok.mp h).2.symm

theorem eq_of_ascending {ps qs : List Path} (hps : ps.Nodup) (hqs : qs.Nodup)
    (ha : ps.Pairwise fun p q => p.text ≤ q.text) (ha' : qs.Pairwise fun p q => p.text ≤ q.text)
    (h : ∀ p, p ∈ ps ↔ p ∈ qs) : ps = qs :=
  (Path.ascending_of_le ha hps).eq_of_mem_iff (Path.ascending_of_le ha' hqs) h

theorem Prepared.ascending (p : Prepared r m entries contents g)
    (ha : m.Pairwise fun v w => v.path.text ≤ w.path.text) :
    (contents.map Prod.fst).Pairwise fun p q => p.text ≤ q.text := by
  rw [p.map_fst, List.pairwise_map]
  exact ha

theorem Prepared.nodup_map_fst (p : Prepared r m entries contents g) :
    (contents.map Prod.fst).Nodup := by
  rw [p.map_fst]
  exact p.nodup

section Finished

variable (f : Finished contents g₁ g)
include f

theorem Finished.digest_eq {h : Handle} {e e₁ : Element} (hl : g.LiveAt h e)
    (hl₁ : g₁.LiveAt h e₁) : e.freshDigest = e₁.body.hull.digest e₁.path := by
  rw [Element.freshDigest, f.path_eq hl hl₁, Body.digest_of_unwire (f.unwire_body_eq hl hl₁),
    Body.digest_rebind fun l _ => path_onLink_bind g₁ l]
  exact (Body.digest_mapChildren _ _ _).symm

theorem Finished.exists_content_iff (hc : ∀ c ∈ contents, c.2.IsContent) {p : Path}
    {P : Body → Prop} : (∃ b, (p, b) ∈ contents ∧ P b) ↔
      ∃ h e e₁, g.LiveAt h e ∧ g₁.LiveAt h e₁ ∧ isModelled e.kind = true ∧ e.path = p ∧
        P e₁.body.hull := by
  have hmodelled : ∀ {h : Handle} {e e₁ : Element}, g.LiveAt h e → g₁.LiveAt h e₁ →
      (isModelled e.kind = true ↔ e₁.body.hull.IsContent) := by
    intro h e e₁ hl hl₁
    rw [f.kind_eq hl hl₁, ← isModelled_kind, Body.kind_hull, Element.kind]
  constructor
  · rintro ⟨b, hb, hP⟩
    obtain ⟨h, e, e₁, hl, hl₁, rfl, rfl⟩ := f.kept (.content hb)
    exact ⟨h, e, e₁, hl, hl₁, (hmodelled hl hl₁).mpr (hc _ hb), f.path_eq hl hl₁, hP⟩
  · rintro ⟨h, e, e₁, hl, hl₁, hm, rfl, hP⟩
    obtain ⟨e₂, hl₂, hp, hs⟩ := f.gained hl
    rw [hl₂.unique hl₁] at hp hs
    exact ⟨_, hp ▸ hs.mem ((hmodelled hl hl₁).mp hm), hP⟩

theorem Finished.mem_digests (hc : ∀ c ∈ contents, c.2.IsContent) {p : Path} {d : Digest} :
    (p, d) ∈ g.digests ↔ ∃ b, (p, b) ∈ contents ∧ b.digest p = d := by
  rw [Graph.mem_digests f.wellFormed, f.exists_content_iff hc]
  constructor
  · rintro ⟨h, e, hl, hm, rfl, rfl⟩
    obtain ⟨e₁, hl₁, hp, -⟩ := f.gained hl
    exact ⟨h, e, e₁, hl, hl₁, hm, rfl, hp ▸ (f.digest_eq hl hl₁).symm⟩
  · rintro ⟨h, e, e₁, hl, hl₁, hm, rfl, rfl⟩
    exact ⟨h, e, hl, hm, rfl, f.path_eq hl hl₁ ▸ f.digest_eq hl hl₁⟩

end Finished

theorem hashIndex_of_perm (f : Finished contents g₁ g) (f' : Finished contents' g₁' g')
    (hc : ∀ c ∈ contents, c.2.IsContent) (hp : contents.Perm contents') :
    (Index.ofList g.digests).sorted = (Index.ofList g'.digests).sorted := by
  have hn := nodup_digests f.wellFormed
  have hn' := nodup_digests f'.wellFormed
  apply Index.sorted_eq_of_perm
  rw [Index.entries_ofList hn, Index.entries_ofList hn',
    List.perm_ext_iff_of_nodup (hn.of_map _) (hn'.of_map _)]
  rintro ⟨q, d⟩
  rw [f.mem_digests hc, f'.mem_digests fun c hm => hc c (hp.mem_iff.mpr hm)]
  simp only [hp.mem_iff]

/-- What the elements are written as, or why they are not, in the order of the graph. -/
def writings (g : Graph) : List (Path × Except WriteError (Option Entity)) :=
  g.live.map fun l => (l.2.path, g.entity? l.2)

/-- Why elements of a graph can't be written, in the order of the graph. -/
def writeFaults (g : Graph) : List WriteError := (g.writings.map Prod.snd).filterMap errorOf?

theorem map_snd_writings (g : Graph) :
    g.writings.map Prod.snd = g.live.map fun l => g.entity? l.2 := by
  rw [writings, List.map_map]
  rfl

theorem toModel_eq_error {fault : WriteError} :
    g.toModel = .error fault ↔ g.writeFaults.head? = some fault := by
  rw [writeFaults, map_snd_writings, ← mapM_eq_error, toModel, bind_eq_error]
  simp [pure, Except.pure]

theorem nodup_writings (w : g.WellFormed) : g.writings.Nodup := by
  refine List.Nodup.of_map Prod.fst ?_
  rw [writings, List.map_map, List.nodup_iff_pairwise_ne, List.pairwise_map]
  exact pairwise_live w

theorem Finished.mem_writings {ps : List Preset} (hr : Preset.registry ps = .ok g.registry)
    (f : Finished contents g₁ g) {q : Path} {o : Except WriteError (Option Entity)} :
    (q, o) ∈ g.writings ↔
      ∃ b, Stock contents q b ∧ (bare g.registry).entity? (.placed q b) = o := by
  simp only [writings, List.mem_map, Prod.mk.injEq]
  constructor
  · rintro ⟨⟨h, e⟩, hl, rfl, rfl⟩
    have hl := (mem_live f.wellFormed).mp hl
    obtain ⟨e₁, hl₁, hpath, hs⟩ := f.gained hl
    exact ⟨_, hpath ▸ hs, hpath ▸ (f.entity?_eq hl hl₁ hr).symm⟩
  · rintro ⟨b, hs, rfl⟩
    obtain ⟨h, e, e₁, hl, hl₁, rfl, rfl⟩ := f.kept hs
    exact ⟨(h, e), (mem_live f.wellFormed).mpr hl, f.path_eq hl hl₁, f.entity?_eq hl hl₁ hr⟩

theorem writings_of_perm {ps : List Preset} (hr : Preset.registry ps = .ok g.registry)
    (hg : g'.registry = g.registry) (f : Finished contents g₁ g) (f' : Finished contents' g₁' g')
    (hp : contents.Perm contents') : g.writings.Perm g'.writings := by
  rw [List.perm_ext_iff_of_nodup (nodup_writings f.wellFormed) (nodup_writings f'.wellFormed)]
  rintro ⟨q, o⟩
  rw [f.mem_writings hr, f'.mem_writings (hg ▸ hr), hg]
  simp only [stock_iff_of_perm hp]

theorem writeFaults_of_perm (hp : g.writings.Perm g'.writings) :
    g.writeFaults.Perm g'.writeFaults :=
  (hp.map Prod.snd).filterMap errorOf?

theorem toModel_of_perm (w : g.WellFormed) (hp : g.writings.Perm g'.writings) {n : Model}
    (hn : g.toModel = .ok n) : g'.toModel = .ok n := by
  have hnodup := nodup_toModel w hn
  have hascending := ascending_toModel hn
  obtain ⟨os, hos, hn⟩ := bind_eq_ok.mp hn
  cases hn
  have hwritings := hp.map Prod.snd
  rw [map_snd_writings, map_snd_writings] at hwritings
  obtain ⟨os', hos', hperm⟩ := mapM_ok_of_perm hwritings hos
  have hn' : g'.toModel = .ok (Model.sorted (os'.filterMap id)) := by
    rw [toModel, hos']
    rfl
  have hsorted : (Model.sorted (os.filterMap id)).Perm (Model.sorted (os'.filterMap id)) :=
    ((List.mergeSort_perm _ _).trans (hperm.filterMap id)).trans (List.mergeSort_perm _ _).symm
  rw [hn', Model.eq_of_perm hsorted hnodup hascending (ascending_toModel hn')]

theorem toModel_eq_of_perm (w : g.WellFormed) (hp : g.writings.Perm g'.writings)
    (hf : g.writeFaults.length ≤ 1) : g.toModel = g'.toModel := by
  cases hn : g.toModel with
  | ok n => exact (toModel_of_perm w hp hn).symm
  | error fault =>
    have hfirst := toModel_eq_error.mp hn
    have hfaults : g.writeFaults = [fault] := by
      obtain ⟨rest, hrest⟩ := List.head?_eq_some_iff.mp hfirst
      rw [hrest, List.length_cons] at hf
      rw [hrest, List.length_eq_zero_iff.mp (Nat.le_zero.mp (Nat.le_of_succ_le_succ hf))]
    have hperm := writeFaults_of_perm hp
    rw [hfaults, List.singleton_perm] at hperm
    exact (toModel_eq_error.mpr (by rw [← hperm]; rfl)).symm

/-- The order of its entities carries no meaning for a model. A phase before the wiring rejects it
in every order or in none. The graphs that are built of it in two orders have the same hash index,
and they are written as the same model. Where one can't be written neither can the other, and their
elements fail with the same errors; each graph reports the first of its own, so that the order shows
only where there are several. -/
theorem build_of_perm {ps : List Preset} (hr : Preset.registry ps = .ok r) (hm : m.Perm m') :
    (∀ phase, (∃ ds, Rejects r m phase ds) ↔ ∃ ds, Rejects r m' phase ds) ∧
      ∀ {freeze freeze' : Bool} {g g' : Graph}, build r freeze m = .ok g →
        build r freeze' m' = .ok g' →
          g.hashIndex.2 = g'.hashIndex.2 ∧ (∀ n, g.toModel = .ok n ↔ g'.toModel = .ok n) ∧
            (∀ fault, g.toModel = .error fault ↔ g.writeFaults.head? = some fault) ∧
            g.writeFaults.Perm g'.writeFaults ∧
            (g.writeFaults.length ≤ 1 → g.toModel = g'.toModel) := by
  constructor
  · intro phase
    exact ⟨fun ⟨_, h⟩ => h.of_perm hm, fun ⟨_, h⟩ => h.of_perm hm.symm⟩
  · intro freeze freeze' g g' hb hb'
    obtain ⟨entries, contents, g₁, p⟩ := prepared_of_build hb
    obtain ⟨entries', contents', g₁', p'⟩ := prepared_of_build hb'
    have f := p.finished hb
    have f' := p'.finished hb'
    have hperm := p.perm p' hm
    have hg : g.registry = r := f.registry_eq.trans p.registry_eq
    have hg' : g'.registry = g.registry := (f'.registry_eq.trans p'.registry_eq).trans hg.symm
    have hwritings := writings_of_perm (hg.symm ▸ hr) hg' f f' hperm
    refine ⟨?_, fun n => ⟨?_, ?_⟩, fun _ => toModel_eq_error, writeFaults_of_perm hwritings, ?_⟩
    · rw [hashIndex_of_build hb, hashIndex_of_build hb', hashIndex_of_perm f f' p.isContent hperm]
    · exact toModel_of_perm f.wellFormed hwritings
    · exact toModel_of_perm f'.wellFormed hwritings.symm
    · exact toModel_eq_of_perm f.wellFormed hwritings

def columnEntity (name type : String) : Entity where
  path := ⟨name⟩
  classifier := "meta::relational::metamodel::Database"
  content := .obj [("_type", .str "relational"), ("name", .str name), ("schemas", .arr [.obj [
    ("name", .str "s"), ("tables", .arr [.obj [("columns", .arr [.obj [("name", .str "c"),
      ("nullable", .bool true), ("type", .obj [("_type", .str type)])]]), ("name", .str "t")]])]])]

/-- The graph of databases of one column, each with the type of its column. -/
def columnGraph (databases : List (String × String)) : Graph :=
  databases.foldl (fun g d => (g.create ⟨d.1⟩ (.database { schemas := [{ name := "s", tables :=
    [{ name := "t", columns := [{ name := "c", dataType := d.2, nullable := true }] }] }] })).1)
    (new Preset.full)

theorem build_of_perm_columns :
    (columnGraph [("A", "Int"), ("B", "Int")]).hashIndex.2 =
        (columnGraph [("B", "Int"), ("A", "Int")]).hashIndex.2 ∧
      (columnGraph [("A", "Int"), ("B", "Int")]).toModel =
        (columnGraph [("B", "Int"), ("A", "Int")]).toModel := by
  have hm : [columnEntity "A" "Int", columnEntity "B" "Int"].Perm
      [columnEntity "B" "Int", columnEntity "A" "Int"] := .swap _ _ _
  have hb : build Preset.full false [columnEntity "A" "Int", columnEntity "B" "Int"] =
      .ok (columnGraph [("A", "Int"), ("B", "Int")]) := rfl
  have hb' : build Preset.full false [columnEntity "B" "Int", columnEntity "A" "Int"] =
      .ok (columnGraph [("B", "Int"), ("A", "Int")]) := rfl
  have hfaults : (columnGraph [("A", "Int"), ("B", "Int")]).writeFaults = [] := rfl
  obtain ⟨hhash, -, -, -, hwritten⟩ := (build_of_perm Preset.registry_all hm).2 hb hb'
  exact ⟨hhash, hwritten (by rw [hfaults]; exact Nat.zero_le 1)⟩

/-- Of two databases that can't be written, the one that comes first is reported. -/
theorem toModel_ne_of_order :
    [columnEntity "A" "A(", columnEntity "B" "B("].Perm
        [columnEntity "B" "B(", columnEntity "A" "A("] ∧
      ∃ g g', build Preset.full false [columnEntity "A" "A(", columnEntity "B" "B("] = .ok g ∧
        build Preset.full false [columnEntity "B" "B(", columnEntity "A" "A("] = .ok g' ∧
        g.toModel = .error (.invalidColumnType ⟨"A"⟩ "A(") ∧
        g'.toModel = .error (.invalidColumnType ⟨"B"⟩ "B(") ∧ g.toModel ≠ g'.toModel := by
  have ha : (columnGraph [("A", "A("), ("B", "B(")]).toModel =
      .error (.invalidColumnType ⟨"A"⟩ "A(") := rfl
  have hb : (columnGraph [("B", "B("), ("A", "A(")]).toModel =
      .error (.invalidColumnType ⟨"B"⟩ "B(") := rfl
  refine ⟨.swap _ _ _, columnGraph [("A", "A("), ("B", "B(")],
    columnGraph [("B", "B("), ("A", "A(")], rfl, rfl, ha, hb, ?_⟩
  rw [ha, hb]
  intro he
  exact absurd (WriteError.invalidColumnType.inj (Except.error.inj he)).2 (by decide)

end ModelGraph.Graph
