import ModelGraph.Proofs.FixedPoint
import ModelGraph.Proofs.ReferencePaths

namespace ModelGraph

namespace Family

@[simp]
theorem admits_unwire (F : Family) (b : Body) : F.admits b.unwire = F.admits b := by
  cases b <;> cases F <;> rfl

end Family

namespace Graph

variable {g g₁ : Graph} {contents : List (Path × Body)}

/-- A reference is bound, to the element that is alive at its path, and this is one of the elements
that the family of the reference is made of. -/
def Binds (g : Graph) (l : Link) : Prop :=
  ∃ t x, l.target = some t ∧ g.LiveAt t x ∧ x.path = l.path ∧ l.family.admits x.body = true

theorem Keeps.liveAt_unwired {g' : Graph} (k : Keeps Element.unwired g g') {h : Handle}
    {e : Element} (hl : g.LiveAt h e) :
    ∃ e', g'.LiveAt h e' ∧ e'.path = e.path ∧ e'.body.unwire = e.body.unwire := by
  obtain ⟨e', he', hunwired⟩ := k.element? hl.1
  have hplace : e'.place = e.place := congrArg (fun x => x.1.1) hunwired
  exact ⟨e', ⟨he', (congrArg ElementPlace.deleted hplace).trans hl.2⟩,
    congrArg ElementPlace.path hplace, congrArg Prod.snd hunwired⟩

theorem Keeps.binds {g' : Graph} (k : Keeps Element.unwired g g') {l : Link} (hb : g.Binds l) :
    g'.Binds l := by
  obtain ⟨t, x, ht, hx, hp, ha⟩ := hb
  obtain ⟨x', hx', hp', hu⟩ := k.liveAt_unwired hx
  refine ⟨t, x', ht, hx', hp'.trans hp, ?_⟩
  rw [← Family.admits_unwire, hu, Family.admits_unwire, ha]

theorem liveAt_resolveAll (w : g.WellFormed) {h : Handle} {e' : Element} :
    g.resolveAll.1.LiveAt h e' ↔
      ∃ e, g.LiveAt h e ∧ e' = { e with body := e.body.rebind g.bind } :=
  w.liveAt_updateLive (f := fun e => { e with body := e.body.rebind g.bind }) fun _ => rfl

theorem binds_resolveAll (w : g.WellFormed) {l : Link} (hr : ∃ t, g.resolve l = .ok t) :
    g.resolveAll.1.Binds (Rebinding.onLink g.bind l) := by
  obtain ⟨t, ht⟩ := hr
  obtain ⟨x, hx, hp, ha⟩ := (resolve_eq_ok w).mp ht
  rw [onLink_bind, ht]
  exact ⟨t, _, rfl, (liveAt_resolveAll w).mpr ⟨x, hx, rfl⟩, hp,
    (Family.admits_rebind _ _ _).trans ha⟩

theorem Finished.binds (f : Finished contents g₁ g) {h : Handle} {e : Element}
    (hl : g.LiveAt h e) {l : Link} (hm : l ∈ e.body.links) : g.Binds l := by
  obtain ⟨e₁, hl₁, -⟩ := f.gained hl
  have hlinks : e.body.links = (e₁.body.rebind g₁.bind).links := by
    rw [← Body.links_unwire e.body, f.unwire_body_eq hl hl₁, Body.links_unwire]
  rw [hlinks, Body.links_rebind, List.mem_map] at hm
  obtain ⟨l₁, hl₁', rfl⟩ := hm
  exact f.keeps.binds (binds_resolveAll f.stocked.wellFormed (f.resolves hl₁ l₁ hl₁'))

/-- A graph that a build has made has no dangling references: whatever reference stands anywhere in
the body of an element is bound to the element that owns its path, and this is of a kind that the
family of the reference has. -/
theorem references_bound {r : Registry} {freeze : Bool} {m : Model}
    (hb : build r freeze m = .ok g) {h : Handle} {e : Element} (hl : g.LiveAt h e) {l : Link}
    (ho : e.body.Holds l) :
    ∃ t x, l.target = some t ∧ g.LiveAt t x ∧ x.path = l.path ∧ g.lookup l.path = some t ∧
      l.family.admits x.body = true := by
  obtain ⟨entries, contents, g₁, p⟩ := prepared_of_build hb
  have f := p.finished hb
  obtain ⟨t, x, ht, hx, hp, ha⟩ := f.binds hl ho.mem_links
  exact ⟨t, x, ht, hx, hp, hp ▸ f.wellFormed.lookup_path hx, ha⟩

theorem references_bound_party :
    ∃ t x, (⟨.class, ⟨"Party"⟩, some ⟨12⟩⟩ : Link).target = some t ∧ partyGraph.LiveAt t x ∧
      x.path = ⟨"Party"⟩ ∧ partyGraph.lookup ⟨"Party"⟩ = some t ∧
      Family.class.admits x.body = true := by
  have hb : build Preset.full false [partyEntity [("superTypes", .arr [.str "Party"])]] =
      .ok partyGraph := rfl
  have hl : partyGraph.LiveAt ⟨12⟩
      { name := "Party", path := ⟨"Party"⟩
        body := .class { superTypes := [.bound ⟨"Party"⟩ ⟨12⟩] } } := ⟨rfl, rfl⟩
  have ho : (Body.class { superTypes := [.bound ⟨"Party"⟩ ⟨12⟩] }).Holds
      ⟨.class, ⟨"Party"⟩, some ⟨12⟩⟩ :=
    .class_ (Class.Holds.superType (r := .bound ⟨"Party"⟩ ⟨12⟩) List.mem_cons_self)
  exact references_bound hb hl ho

end Graph
end ModelGraph
