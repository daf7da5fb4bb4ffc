import ModelGraph.Proofs.Counterparts
import ModelGraph.Proofs.ReferencePaths

namespace ModelGraph.Graph

variable {g g' g₁ : Graph} {contents : List (Path × Body)}

/-- The path that the element at a path has in another graph. -/
def destination (g g' : Graph) (p : Path) : Path :=
  (((g.lookup p).bind g'.element?).map Element.path).getD p

/-- What a renaming makes of a graph: the same elements with the same owners and, but for the root,
the same names, and references that are spelled by the present paths of their targets. -/
structure Renamed (root : Handle) (g g' : Graph) : Prop where
  wellFormed : g'.WellFormed
  registry : g'.registry = g.registry
  kept : ∀ h e, g.LiveAt h e → ∃ e', g'.LiveAt h e' ∧ e'.package = e.package ∧
    (h ≠ root → e'.name = e.name) ∧
    e'.body.spelled g'.referencePath = e.body.spelled g'.referencePath
  gained : ∀ h e', g'.LiveAt h e' → ∃ e, g.LiveAt h e

theorem Renamed.refl (w : g.WellFormed) (root : Handle) : Renamed root g g where
  wellFormed := w
  registry := rfl
  kept _ e hl := ⟨e, hl, rfl, fun _ => rfl, rfl⟩
  gained _ e hl := ⟨e, hl⟩

theorem spelled_follow {moves : Moves} (hm : ∀ t q, (t, q) ∈ moves → ∃ e, g.element? t = some e)
    (b : Body) : (b.rebind moves.follow).spelled g.referencePath = b.spelled g.referencePath := by
  rw [Body.spelled, Body.spelled, Body.rebind_rebind]
  refine congrArg Body.unwire (Body.rebind_eq_iff.mpr fun l _ => ?_)
  simp only [Rebinding.onLink, Rebinding.after]
  cases hp : moves.path? l.target with
  | none =>
    have hfollow : moves.follow l.family ⟨l.path, l.target⟩ = ⟨l.path, l.target⟩ := by
      simp only [Moves.follow, hp]
    rw [hfollow]
  | some q =>
    have hfollow : moves.follow l.family ⟨l.path, l.target⟩ = ⟨q, l.target⟩ := by
      simp only [Moves.follow, hp]
    obtain ⟨t, ht, hlook⟩ := Option.bind_eq_some_iff.mp hp
    obtain ⟨e, he⟩ := hm t q (Renaming.mem_of_lookup hlook)
    rw [hfollow]
    simp only [spell, referencePath, Reference.link, ht, Option.bind_some, he]

theorem renamed_of_rename (w : g.WellFormed) {h : Handle} {e : Element} (hl : g.LiveAt h e)
    {name : String} (hs : Path.IsSegment name) (hr : g.rename h name = .ok g') :
    Renamed h g g' := by
  rcases rename_eq_ok w hl hs hr with rfl | ⟨r, rfl, rfl⟩
  · exact .refl w h
  have s := r.follows_outcome.partial_
  have k := (keeps_repoint r.outcome.2 r.outcome.1).place
  have hmoved : ∀ t q, (t, q) ∈ r.outcome.2 →
      ∃ x, (r.outcome.1.repoint r.outcome.2).element? t = some x := by
    intro t q hm
    obtain ⟨x, hx, -⟩ := s.moved t q hm
    obtain ⟨x₁, hx₁, -⟩ := s.liveAt hx
    obtain ⟨x', hx', -⟩ := k.liveAt hx₁
    exact ⟨x', hx'.1⟩
  constructor
  case wellFormed => exact k.wellFormed r.wellFormed_outcome
  case registry => exact k.registry.trans s.registry
  case kept =>
    intro t x hx
    obtain ⟨x₁, hx₁, -, hname, hpackage, hbody⟩ := s.liveAt hx
    have hrepoint := (r.wellFormed_outcome.liveAt_updateLive
      (f := fun e => if r.outcome.2.concern e.body then e.edit (·.rebind r.outcome.2.follow) else e)
      fun e => by split <;> rfl).mpr ⟨x₁, hx₁, rfl⟩
    refine ⟨_, hrepoint, ?_, ?_, ?_⟩
    · rw [← hpackage]
      split <;> rfl
    · intro hne
      rw [if_neg hne] at hname
      rw [← hname]
      split <;> rfl
    · split
      · exact (spelled_follow hmoved x₁.body).trans (by rw [hbody])
      · rw [hbody]
  case gained =>
    intro t x' hx'
    obtain ⟨x₁, hx₁, -⟩ := k.symm.liveAt hx'
    obtain ⟨x, hx, -⟩ := s.liveAt_old hx₁
    exact ⟨x, hx⟩

theorem WellFormed.destination_path (w : g.WellFormed) {h : Handle} {e e' : Element}
    (hl : g.LiveAt h e) (hl' : g'.LiveAt h e') : g.destination g' e.path = e'.path := by
  rw [destination, w.lookup_path hl, Option.bind_some, hl'.1]
  rfl

namespace Renamed

variable {root : Handle} (r : Renamed root g g') (w : g.WellFormed)
include r w

theorem ancestors_path {h : Handle} {e e' : Element} (hl : g.LiveAt h e) (hl' : g'.LiveAt h e') :
    e'.path.ancestors = e.path.ancestors.map (g.destination g') := by
  -- The owner of an element is older than the element.
  induction hn : h.slot using Nat.strongRecOn generalizing h e e' with
  | ind n ih =>
    obtain ⟨x, hx, hpackage, -⟩ := r.kept h e hl
    obtain rfl := hx.unique hl'
    have hp := w.package?_path hl
    have hp' := r.wellFormed.package?_path hl'
    rw [hpackage] at hp'
    cases ho : e.package with
    | none =>
      rw [ho, Option.map_none] at hp hp'
      rw [Path.ancestors_eq_nil hp, Path.ancestors_eq_nil hp', List.map_nil]
    | some o =>
      obtain ⟨q, hq, -, hlt, -⟩ := w.owner h e o hl ho
      obtain ⟨q', hq', -⟩ := r.kept o q hq
      rw [ho, Option.map_some, hq.pathOf] at hp
      rw [ho, Option.map_some, hq'.pathOf] at hp'
      rw [Path.ancestors_eq hp, Path.ancestors_eq hp', List.map_cons, w.destination_path hq hq',
        ih o.slot (hn ▸ hlt) hq hq' rfl]

theorem destination_of_package {h : Handle} {e : Element} (hl : g.LiveAt h e)
    (ho : e.package = none) (hne : h ≠ root) : g.destination g' e.path = e.path := by
  obtain ⟨e', hl', hpackage, hname, -⟩ := r.kept h e hl
  rw [w.destination_path hl hl', r.wellFormed.path_eq h e' hl', w.path_eq h e hl, hpackage, ho,
    hname hne]
  rfl

end Renamed

section Finished

variable {root : Handle} (r : Renamed root g g') (f : Finished contents g₁ g)
include r f

theorem Renamed.carries (hroot : ∀ e, g.LiveAt root e → e.kind ≠ .primitiveType) :
    Carries (g.destination g') contents := by
  have w := f.wellFormed
  -- What a content or a package around one becomes.
  have hstock : ∀ {p b}, Stock contents p b →
      ∃ h e e', g.LiveAt h e ∧ g'.LiveAt h e' ∧ e.path = p ∧ e.kind = b.kind := by
    intro p b hs
    obtain ⟨h, e, e₁, hl, hl₁, rfl, rfl⟩ := f.kept hs
    obtain ⟨e', hl', -⟩ := r.kept h e hl
    exact ⟨h, e, e', hl, hl', f.path_eq hl hl₁, (f.kind_eq hl hl₁).trans (Body.kind_hull _).symm⟩
  constructor
  case primitive =>
    intro name hn
    obtain ⟨h, e, e', hl, hl', hp, hk⟩ := hstock (.primitive hn)
    have hpackage : e.package = none := by
      have htop : (⟨name⟩ : Path).package? = none :=
        (by decide : ∀ name ∈ primitiveNames, (⟨name⟩ : Path).package? = none) name hn
      rw [← hp, w.package?_path hl, Option.map_eq_none_iff] at htop
      exact htop
    rw [← hp]
    refine r.destination_of_package w hl hpackage ?_
    rintro rfl
    exact hroot e hl hk
  case ancestors =>
    intro p b hb
    obtain ⟨h, e, e', hl, hl', rfl, -⟩ := hstock (.content hb)
    rw [w.destination_path hl hl', r.ancestors_path w hl hl']
  case injective =>
    intro p q b b' hb hb' heq
    obtain ⟨h, e, e', hl, hl', rfl, -⟩ := hstock hb
    obtain ⟨k, d, d', hd, hd', rfl, -⟩ := hstock hb'
    rw [w.destination_path hl hl', w.destination_path hd hd'] at heq
    obtain rfl := r.wellFormed.handle_eq hl' hd' heq
    rw [hl.unique hd]
  case fault =>
    intro p b hb
    obtain ⟨h, e, e', hl, hl', rfl, -⟩ := hstock (.content hb)
    rw [w.destination_path hl hl']
    exact r.wellFormed.fault?_path hl'

theorem Renamed.shows {ps : List Preset} (hr : Preset.registry ps = .ok g.registry) :
    Shows (g.destination g') contents g' := by
  have w := f.wellFormed
  have hr' : Preset.registry ps = .ok g'.registry := r.registry.symm ▸ hr
  have hnames : ∀ t x, g.LiveAt t x → ∀ F q,
      g'.referencePath ⟨F, q, some t⟩ = g.destination g' x.path := by
    intro t x hx F q
    obtain ⟨x', hx', -⟩ := r.kept t x hx
    rw [referencePath_of_live hx' rfl, w.destination_path hx hx']
  have hentity : ∀ {h e e₁ e'}, g.LiveAt h e → g₁.LiveAt h e₁ → g'.LiveAt h e' →
      e'.path = g.destination g' e₁.path ∧ g'.entity? e' = (bare g'.registry).entity?
        (.placed (g.destination g' e₁.path) (e₁.body.hull.spelled (.along (g.destination g')))) := by
    intro h e e₁ e' hl hl₁ hl'
    have hpath : e'.path = g.destination g' e₁.path := by
      rw [← w.destination_path hl hl', f.path_eq hl hl₁]
    obtain ⟨x, hx, -, -, hspelled⟩ := r.kept h e hl
    obtain rfl := hx.unique hl'
    have hs := hspelled.trans (f.spelled_eq hl hl₁ hnames)
    exact ⟨hpath, by
      rw [entity?_of_spelled hr' r.wellFormed hl' hs, hpath, spelled_hull, entity?_hull]⟩
  constructor
  case wellFormed => exact r.wellFormed
  case kept =>
    intro p b hs
    obtain ⟨h, e, e₁, hl, hl₁, rfl, rfl⟩ := f.kept hs
    obtain ⟨e', hl', -⟩ := r.kept h e hl
    exact ⟨h, e', hl', hentity hl hl₁ hl'⟩
  case gained =>
    intro h e' hl'
    obtain ⟨e, hl⟩ := r.gained h e' hl'
    obtain ⟨e₁, hl₁, -, hs⟩ := f.gained hl
    exact ⟨_, _, hs, hentity hl hl₁ hl'⟩

end Finished

end ModelGraph.Graph
