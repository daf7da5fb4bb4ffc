import ModelGraph.Proofs.Counterparts

namespace ModelGraph.Graph

variable {g : Graph}

/-- Writing is a fixed point of building. A graph is written as a model whose build fails for
nothing but class mappings that are missing, and whose graph is written as the same model. -/
theorem toModel_fixed {ps : List Preset} {r : Registry} (hr : Preset.registry ps = .ok r)
    {freeze freeze' : Bool} {m n : Model} (hb : build r freeze m = .ok g)
    (hn : g.toModel = .ok n) :
    (∀ ds, build r freeze' n = .error ds → ∀ d ∈ ds, d.code = some .classMappingNotFound) ∧
      ∀ g', build r freeze' n = .ok g' → g'.toModel = .ok n := by
  obtain ⟨entries, contents, g₁, p⟩ := prepared_of_build hb
  have f := p.finished hb
  have hregistry : g.registry = r := f.registry_eq.trans p.registry_eq
  have w : Writes r contents n := by
    have w := f.writes (hregistry.symm ▸ hr) p.isContent hn
    rwa [hregistry] at w
  obtain ⟨entries', contents', g₁', p', hs, w'⟩ := p.rebuild hr w
  constructor
  · intro ds hds d hd
    rw [p.build_eq] at hb
    obtain ⟨hwiring, hvalid, -⟩ := conclude_eq_ok.mp hb
    have hvalid' := (p.wired.mirrors p'.wired hs).validate p.wired.wellFormed p'.wired.wellFormed
      hvalid
    rw [p'.build_eq] at hds
    rw [conclude_eq_error hvalid' hds] at hd
    exact code_of_allWiringFaults (p.bound.mirrors p'.bound hs) p.bound.rostered p'.bound.rostered
      hwiring hd
  · intro g' hb'
    have f' := p'.finished hb'
    have hregistry' : g'.registry = r := f'.registry_eq.trans p'.registry_eq
    have hr' : Preset.registry ps = .ok g'.registry := hregistry'.symm ▸ hr
    have hwritten : ∀ q b, (q, b) ∈ contents' →
        ∃ o, (bare g'.registry).entity? (.placed q b) = .ok o := by
      intro q b hqb
      obtain ⟨v, -, hv, -⟩ := w'.written q b hqb
      exact ⟨some v, hregistry'.symm ▸ hv⟩
    obtain ⟨n', hn'⟩ := f'.toModel_ok hr' hwritten
    have w'' := f'.writes hr' p'.isContent hn'
    rw [hregistry'] at w''
    rw [hn', w'.unique w'']

def partyEntity (members : List (String × Json)) : Entity where
  path := ⟨"Party"⟩
  classifier := "meta::pure::metamodel::type::Class"
  content := .obj ([("_type", .str "class"), ("name", .str "Party")] ++ members)

def partyGraph : Graph :=
  ((new Preset.full).create ⟨"Party"⟩ (.class { superTypes := [.bound ⟨"Party"⟩ ⟨12⟩] })).1

theorem toModel_fixed_party :
    (∀ ds, build Preset.full true [partyEntity [("superTypes", .arr [.str "Party"])]] = .error ds →
      ∀ d ∈ ds, d.code = some .classMappingNotFound) ∧
    ∀ g', build Preset.full true [partyEntity [("superTypes", .arr [.str "Party"])]] = .ok g' →
      g'.toModel = .ok [partyEntity [("superTypes", .arr [.str "Party"])]] := by
  have hb : build Preset.full false
      [partyEntity [("properties", .arr []), ("superTypes", .arr [.str "Party"])]] =
        .ok partyGraph := rfl
  have hentities : partyGraph.live.mapM (fun l => partyGraph.entity? l.2) =
      .ok (List.replicate 12 none ++
        [some (partyEntity [("superTypes", .arr [.str "Party"])])]) := rfl
  refine toModel_fixed Preset.registry_all hb ?_
  rw [toModel, hentities]
  exact congrArg Except.ok (List.mergeSort_singleton _)

end ModelGraph.Graph
