import ModelGraph.Proofs.DigestWords
import ModelGraph.Proofs.IdentifiedElements
import ModelGraph.Proofs.RebuiltDigests

namespace ModelGraph

open HashInput

theorem Diff.eq_of_unmodified {x y : Index Digest} {p : Path} {d d' : Digest}
    (hp : p ∉ (between x y).modified) (hx : x.get? p = some d) (hy : y.get? p = some d') :
    d = d' := by
  by_contra hne
  refine hp (List.mem_mergeSort.mpr (List.mem_map.mpr ⟨(p, d'), ?_, rfl⟩))
  rw [List.mem_filter, hx]
  exact ⟨Index.get?_eq_some_iff.mp hy, by simpa using hne⟩

namespace Graph

variable {g g' g₁ : Graph} {r r' : Registry} {ps ps' : List Preset} {m m' n n' : Model}
  {contents : List (Path × Body)} {freeze freeze' : Bool} {h h' : Handle} {e e' : Element}

/-- Elements of one digest, or at a path that the difference of their graphs does not report. -/
def Unnoticed (g g' : Graph) (e e' : Element) : Prop :=
  (∃ d x x', e.hash = .ok (d, x) ∧ e'.hash = .ok (d, x')) ∨
    e.path = e'.path ∧ ∃ δ, Diff.ofGraphs g g' = .ok δ ∧ e.path ∉ δ.modified

theorem spelled_path_bind (b : Body) :
    (b.rebind g.bind).spelled Link.path = b.spelled Link.path := by
  rw [Body.spelled, Body.spelled, Body.rebind_rebind]
  refine congrArg Body.unwire (Body.rebind_eq_iff.mpr fun l _ => ?_)
  exact congrArg (fun p => Link.mk l.family p none) (path_onLink_bind g l)

theorem Finished.entity?_self (f : Finished contents g₁ g)
    (hr : Preset.registry ps = .ok g.registry) (hl : g.LiveAt h e) :
    g.entity? e = (bare g.registry).entity? (.placed e.path e.body) := by
  obtain ⟨e₁, hl₁, -, -⟩ := f.gained hl
  have hnames : e.body.spelled g.referencePath = e.body.spelled Link.path := by
    rw [f.spelled_eq hl hl₁ (μ := id) fun t x hx F q => referencePath_of_live hx rfl,
      Naming.along_id, Body.spelled_of_unwire (f.unwire_body_eq hl hl₁), spelled_path_bind]
  rw [entity?_of_spelled hr f.wellFormed hl hnames, entity?_spelled_path hr]

/-- An element as it stands in a built graph: its body is bounded, it has an entity in the model that
the graph is written as, and its digest is that of its hash input, also in the index of the graph. -/
structure Stands (g : Graph) (r : Registry) (n : Model) (e : Element) : Prop where
  bounded : e.body.IsBounded
  written : e.body.IsContent → ∃ w ∈ n, w.path = e.path ∧
    (bare r).entity? (.placed e.path e.body) = .ok (some w)
  hashed : ∀ {d x}, e.hash = .ok (d, x) → d = e.freshDigest
  indexed : e.body.IsContent → ∀ {x}, g.hashIndex.2 = .ok x → x.get? e.path = some e.freshDigest

theorem stands_of_build (hr : Preset.registry ps = .ok r) (hb : build r freeze m = .ok g)
    (hn : g.toModel = .ok n) (hl : g.LiveAt h e) : Stands g r n e := by
  obtain ⟨entries, contents, g₁, p⟩ := prepared_of_build hb
  have f := p.finished hb
  have hg : g.registry = r := f.registry_eq.trans p.registry_eq
  refine ⟨p.isBounded_live hb hl, fun hc => ?_, fun hd => ?_, fun hc x hx => ?_⟩
  · obtain ⟨o, ho⟩ := exists_entity?_of_toModel f.wellFormed hn hl
    obtain ⟨w, rfl, hw⟩ := some_of_entity? hc ho
    refine ⟨w, (mem_toModel f.wellFormed hn).mpr ⟨h, e, hl, ho⟩, hw, ?_⟩
    rw [← hg, ← f.entity?_self (hg.symm ▸ hr) hl, ho]
  · exact (((untouched_of_build hb).memosFresh h e hl.1).hash hd).1
  · rw [hashIndex_of_build hb] at hx
    cases hx
    rw [Index.get?_eq_some_iff, (Index.perm_sorted _).mem_iff,
      Index.entries_ofList (nodup_digests f.wellFormed), mem_digests f.wellFormed]
    exact ⟨h, e, hl, isModelled_kind.mpr hc, rfl, rfl⟩

theorem Unnoticed.digest_eq (u : Unnoticed g g' e e') (s : Stands g r n e) (s' : Stands g' r' n' e')
    (hc : e.body.IsContent) (hc' : e'.body.IsContent) :
    (e.body.hashInput e.path).digest = (e'.body.hashInput e'.path).digest := by
  change e.freshDigest = e'.freshDigest
  rcases u with ⟨d, x, x', hd, hd'⟩ | ⟨hp, δ, hδ, hu⟩
  · rw [← s.hashed hd, ← s'.hashed hd']
  · obtain ⟨x, hx, hδ⟩ := bind_eq_ok.mp hδ
    obtain ⟨y, hy, hδ⟩ := bind_eq_ok.mp hδ
    cases hδ
    exact Diff.eq_of_unmodified hu (s.indexed hc hx) (hp ▸ s'.indexed hc' hy)

theorem isContent_of_isIdentified {b : Body} (hk : b.isIdentified = true) : b.IsContent := by
  cases b with
  | package children => cases hk
  | primitiveType => cases hk
  | _ => exact ⟨Kind.noConfusion, Kind.noConfusion⟩

/-- An element of these kinds that a comparison of built graphs takes to be unchanged is written in
both as entities of one text, if no two of the inputs that it is hashed by collide. -/
theorem sameText_of_unnoticed (hr : Preset.registry ps = .ok r) (hr' : Preset.registry ps' = .ok r')
    (hb : build r freeze m = .ok g) (hb' : build r' freeze' m' = .ok g') (hn : g.toModel = .ok n)
    (hn' : g'.toModel = .ok n') (hl : g.LiveAt h e) (hl' : g'.LiveAt h' e')
    (hk : e.body.isIdentified = true) (hk' : e'.body.isIdentified = true)
    (apart : Apart (e.body.inputs e.path) (e'.body.inputs e'.path)) (hu : Unnoticed g g' e e') :
    ∃ w ∈ n, ∃ w' ∈ n', w.path = e.path ∧ w'.path = e'.path ∧ w.SameText w' := by
  have s := stands_of_build hr hb hn hl
  have s' := stands_of_build hr' hb' hn' hl'
  have hc := isContent_of_isIdentified hk
  have hc' := isContent_of_isIdentified hk'
  obtain ⟨w, hw, hpath, hwritten⟩ := s.written hc
  obtain ⟨w', hw', hpath', hwritten'⟩ := s'.written hc'
  have hagree := apart.agree (e.body.mem_inputs e.path) (e'.body.mem_inputs e'.path)
    (hu.digest_eq s s' hc hc')
  obtain ⟨hp, halike⟩ := Body.alike_of_hashInput hk hk' s.bounded s'.bounded apart hagree
  exact ⟨w, hw, w', hw', hpath, hpath', entity?_sameText hr hr' hk hk' hp halike hwritten hwritten'⟩

theorem exists_hash_eq (hf : e.hashFault? = none) (hf' : e'.hashFault? = none) (hm : e.memo? = none)
    (hm' : e'.memo? = none) (h : e.body.hashInput e.path = e'.body.hashInput e'.path) :
    ∃ d x x', e.hash = .ok (d, x) ∧ e'.hash = .ok (d, x') := by
  have hdigest : e'.freshDigest = e.freshDigest := congrArg HashInput.digest h.symm
  exact ⟨_, _, _, Element.hash_of_no_memo hf hm, hdigest ▸ Element.hash_of_no_memo hf' hm'⟩

def otherEntity : Entity where
  path := ⟨"Other"⟩
  classifier := "meta::pure::metamodel::type::Class"
  content := .obj [("_type", .str "class"), ("name", .str "Other")]

def partiesGraph : Graph :=
  (((new Preset.full).create ⟨"Other"⟩ (.class {})).1.create ⟨"Party"⟩
    (.class { superTypes := [.bound ⟨"Party"⟩ ⟨13⟩] })).1

theorem sameText_of_unnoticed_party :
    ∃ w ∈ [partyEntity [("superTypes", .arr [.str "Party"])]],
      ∃ w' ∈ Model.sorted [otherEntity, partyEntity [("superTypes", .arr [.str "Party"])]],
        w.path = ⟨"Party"⟩ ∧ w'.path = ⟨"Party"⟩ ∧ w.SameText w' := by
  have hb : build Preset.full false [partyEntity [("superTypes", .arr [.str "Party"])]] =
      .ok partyGraph := rfl
  have hb' : build Preset.full false
      [otherEntity, partyEntity [("superTypes", .arr [.str "Party"])]] = .ok partiesGraph := rfl
  have hn : partyGraph.toModel = .ok [partyEntity [("superTypes", .arr [.str "Party"])]] := by
    have hentities : partyGraph.live.mapM (fun l => partyGraph.entity? l.2) =
        .ok (List.replicate 12 none ++
          [some (partyEntity [("superTypes", .arr [.str "Party"])])]) := rfl
    rw [toModel, hentities]
    exact congrArg Except.ok (List.mergeSort_singleton _)
  have hn' : partiesGraph.toModel =
      .ok (Model.sorted [otherEntity, partyEntity [("superTypes", .arr [.str "Party"])]]) := by
    have hentities : partiesGraph.live.mapM (fun l => partiesGraph.entity? l.2) =
        .ok (List.replicate 12 none ++ [some otherEntity,
          some (partyEntity [("superTypes", .arr [.str "Party"])])]) := rfl
    rw [toModel, hentities]
    rfl
  have hl : partyGraph.LiveAt ⟨12⟩ (.placed ⟨"Party"⟩
      (.class { superTypes := [.bound ⟨"Party"⟩ ⟨12⟩] })) := ⟨rfl, rfl⟩
  have hl' : partiesGraph.LiveAt ⟨13⟩ (.placed ⟨"Party"⟩
      (.class { superTypes := [.bound ⟨"Party"⟩ ⟨13⟩] })) := ⟨rfl, rfl⟩
  have apart : Apart
      (Body.inputs ⟨"Party"⟩ (.class { superTypes := [.bound ⟨"Party"⟩ ⟨12⟩] }))
      (Body.inputs ⟨"Party"⟩ (.class { superTypes := [.bound ⟨"Party"⟩ ⟨13⟩] })) := by
    have hinputs : ∀ base, Body.inputs ⟨"Party"⟩ (.class { superTypes := [.bound ⟨"Party"⟩ base] }) =
        [tag .class ++ text "Party" ++ codes [HashInput.digest (tag .reference ++ text "Party")] ++
            codes [] ++ codes [] ++ codes [] ++ Annotations.hashInput {},
          tag .reference ++ text "Party"] := fun _ => rfl
    rw [hinputs, hinputs]
    refine .of_dedup (by decide +kernel) ?_
    rw [digest_eq_hashNumbers]
    decide +kernel
  exact sameText_of_unnoticed Preset.registry_all Preset.registry_all hb hb' hn hn' hl hl' rfl rfl
    apart (.inl (exists_hash_eq rfl rfl rfl rfl rfl))

end Graph
end ModelGraph
