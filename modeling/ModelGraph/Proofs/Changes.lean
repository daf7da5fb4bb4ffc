import ModelGraph.Proofs.Additions
import ModelGraph.Proofs.Presets
import ModelGraph.Proofs.Relocation
import ModelGraph.Proofs.Retirement

namespace ModelGraph

inductive Change where
  | create (path : Path) (body : Body)
  | add (e : Element) (owner : Option Handle)
  | ensure (path : Path)
  | delete (h : Handle)
  | rename (h : Handle) (name : String)
  | resolve
  | sweep
  | freeze
  | edit (f : Body → Body) (h : Handle)

namespace Change

/-- A change that fails leaves the graph as it was, but for packages that were made already. -/
def run : Change → Graph → Graph
  | .create path body, g => (g.create path body).1
  | .add e owner, g => (g.addStep e owner).1
  | .ensure path, g => (g.ensurePackage path).1
  | .delete h, g => (g.delete h).toOption.getD g
  | .rename h name, g => (g.rename h name).toOption.getD g
  | .resolve, g => g.resolveAll.1
  | .sweep, g => g.sweep.1
  | .freeze, g => g.freeze
  | .edit f h, g => g.edit f h

/-- An edit leaves a package its list of what it owns. Nothing holds a user to this: the list is part
of the body, and an edit may put another body there. -/
def EditsBelow (f : Body → Body) (h : Handle) (g : Graph) : Prop :=
  ∀ b, g.body? h = some b → (f b).children = b.children

/-- The changes under which the containers of a graph agree: new elements own nothing, edits leave
packages what they own, new names are segments, and a renamed element is alive. -/
def Allowed (g : Graph) : Change → Prop
  | .create _ body => body.children = []
  | .add e _ => e.deleted = false ∧ e.body.children = [] ∧ Path.IsSegment e.name
  | .ensure path => path.fault? = none
  | .rename h name => (∃ e, g.LiveAt h e) ∧ Path.IsSegment name
  | .edit f h => EditsBelow f h g
  | .delete _ | .resolve | .sweep | .freeze => True

def KeepsKind (g : Graph) : Change → Prop
  | .edit f h => ∀ b, g.body? h = some b → (f b).kind = b.kind
  | _ => True

/-- Changes by segments, of elements that are alive and within their kinds, whatever lists the
packages bring along. -/
def Plain (g : Graph) : Change → Prop
  | .add e _ => e.deleted = false ∧ Path.IsSegment e.name
  | .ensure path => path.fault? = none
  | .rename h name => (∃ e, g.LiveAt h e) ∧ Path.IsSegment name
  | .edit f h => ∀ b, g.body? h = some b → (f b).kind = b.kind
  | .create _ _ | .delete _ | .resolve | .sweep | .freeze => True

/-- Packages come in empty, and keep their lists when they are edited. -/
def KeepsLists (g : Graph) : Change → Prop
  | .create _ body => body.children = []
  | .add e _ => e.body.children = []
  | .edit f h => ∀ b, g.body? h = some b → (f b).children = b.children
  | _ => True

theorem allowed_and_keepsKind_iff {g : Graph} {c : Change} :
    c.Allowed g ∧ c.KeepsKind g ↔ c.Plain g ∧ c.KeepsLists g := by
  cases c with
  | create => exact and_comm
  | add =>
    constructor
    · exact fun ⟨⟨hd, hl, hs⟩, _⟩ => ⟨⟨hd, hs⟩, hl⟩
    · exact fun ⟨⟨hd, hs⟩, hl⟩ => ⟨⟨hd, hl, hs⟩, trivial⟩
  | edit => exact and_comm
  | _ => exact .rfl

/-- A package with a list of its own takes the place of the one at a handle. -/
def put (children : List Handle) (h : Handle) : Change := .edit (fun _ => .package children) h

theorem plain_put {g : Graph} {h : Handle} {children : List Handle}
    (hk : (g.body? h).map Body.kind = some .package) : (put children h).Plain g := by
  intro b hb
  rw [hb] at hk
  exact (Option.some.inj hk).symm

end Change

namespace Graph

/-- The graphs reached from the new graph by changes of some sort. -/
inductive Reached (sort : Graph → Change → Prop) (r : Registry) : Graph → Prop
  | new : Reached sort r (new r)
  | change {g : Graph} {c : Change} : Reached sort r g → sort g c → Reached sort r (c.run g)

variable {g : Graph}

theorem Reached.mono {sort sort' : Graph → Change → Prop} {r : Registry} (a : Reached sort r g)
    (h : ∀ g c, sort g c → sort' g c) : Reached sort' r g := by
  induction a with
  | new => exact .new
  | change _ hc ih => exact ih.change (h _ _ hc)

theorem keeps_edit {f : Body → Body} {h : Handle} (hf : Change.EditsBelow f h g) :
    Keeps Element.place g (g.edit f h) := by
  apply Keeps.update
  intro e he
  have hb : g.body? h = some e.body := by rw [body?, he, Option.map_some]
  simp only [Element.place, Element.edit, Element.touch, hf e.body hb]

theorem keeps_edit_kind {f : Body → Body} {h : Handle} (hf : Change.EditsBelow f h g)
    (hk : ∀ b, g.body? h = some b → (f b).kind = b.kind) : Keeps Element.post g (g.edit f h) := by
  apply Keeps.update
  intro e he
  have hb : g.body? h = some e.body := by rw [body?, he, Option.map_some]
  exact Element.post_eq_of_body rfl rfl rfl rfl (hk e.body hb) (hf e.body hb)

theorem run_delete (w : g.WellFormed) (h : Handle) :
    (Change.delete h).run g = g ∨ Retired h g ((Change.delete h).run g) := by
  rw [Change.run]
  cases hd : g.delete h with
  | error fault => exact .inl rfl
  | ok g' => exact delete_eq_ok w hd

theorem run_rename (w : g.WellFormed) {h : Handle} {name : String}
    (hc : (Change.rename h name).Allowed g) :
    (Change.rename h name).run g = g ∨
      ∃ r : Renaming g, (Change.rename h name).run g = r.outcome.1.repoint r.outcome.2 := by
  obtain ⟨⟨e, hl⟩, hs⟩ := hc
  rw [Change.run]
  cases hr : g.rename h name with
  | error fault => exact .inl rfl
  | ok g' => exact (rename_eq_ok w hl hs hr).imp_right fun ⟨r, _, hg⟩ => ⟨r, hg⟩

theorem WellFormed.run (w : g.WellFormed) {c : Change} (hc : c.Allowed g) :
    (c.run g).WellFormed := by
  cases c with
  | create path body =>
    exact (grows_create (P := fun _ _ => True) w path (fun _ _ => trivial) trivial hc).wellFormed w
  | add e owner =>
    exact (grows_addStep (P := fun _ _ => True) g owner hc.2.1 hc.1 hc.2.2 trivial).wellFormed w
  | ensure path =>
    have grows := grows_ensurePackage (P := fun _ _ => True) w path hc fun _ _ => trivial
    exact grows.wellFormed w
  | delete h =>
    cases run_delete w h with
    | inl hsame =>
      rw [hsame]
      exact w
    | inr hgone => exact hgone.wellFormed
  | rename h name =>
    cases run_rename w hc with
    | inl hsame =>
      rw [hsame]
      exact w
    | inr hmoved =>
      obtain ⟨r, hr⟩ := hmoved
      rw [hr]
      exact (keeps_repoint r.outcome.2 r.outcome.1).place.wellFormed r.wellFormed_outcome
  | resolve => exact (keeps_resolveAll g).place.wellFormed w
  | sweep => exact (keeps_sweep g).wellFormed w
  | freeze => exact (keeps_freeze g).place.wellFormed w
  | edit f h => exact (keeps_edit hc).wellFormed w

theorem Reached.wellFormed {r : Registry} (a : Reached (fun g c => c.Allowed g) r g) :
    g.WellFormed := by
  induction a with
  | new => exact wellFormed_new r
  | change _ hc ih => exact ih.run hc

theorem Rostered.run (s : g.Rostered) (w : g.WellFormed) (hr : g.registry.KeepsKinds) {c : Change}
    (hc : c.Allowed g) (hk : c.KeepsKind g) : (c.run g).Rostered := by
  cases c with
  | create path body =>
    exact (grows_create (P := fun _ _ => True) w path (fun _ _ => trivial) trivial hc).rostered s
  | add e owner =>
    exact (grows_addStep (P := fun _ _ => True) g owner hc.2.1 hc.1 hc.2.2 trivial).rostered s
  | ensure path =>
    have grows := grows_ensurePackage (P := fun _ _ => True) w path hc fun _ _ => trivial
    exact grows.rostered s
  | delete h =>
    cases run_delete w h with
    | inl hsame =>
      rw [hsame]
      exact s
    | inr hgone => exact hgone.rostered s
  | rename h name =>
    cases run_rename w hc with
    | inl hsame =>
      rw [hsame]
      exact s
    | inr hmoved =>
      obtain ⟨r, hr⟩ := hmoved
      rw [hr]
      exact (keeps_repoint r.outcome.2 r.outcome.1).rostered (r.rostered_outcome s)
  | resolve => exact (keeps_resolveAll g).rostered s
  | sweep => exact (keeps_sweep_kind hr).rostered s
  | freeze => exact (keeps_freeze g).rostered s
  | edit f h => exact (keeps_edit_kind hc hk).rostered s

theorem registry_run (w : g.WellFormed) {c : Change} (hc : c.Allowed g) :
    (c.run g).registry = g.registry := by
  cases c with
  | create path body =>
    exact (grows_create (P := fun _ _ => True) w path (fun _ _ => trivial) trivial hc).registry_eq
  | add e owner =>
    exact (grows_addStep (P := fun _ _ => True) g owner hc.2.1 hc.1 hc.2.2 trivial).registry_eq
  | ensure path =>
    have grows := grows_ensurePackage (P := fun _ _ => True) w path hc fun _ _ => trivial
    exact grows.registry_eq
  | delete h =>
    cases run_delete w h with
    | inl hsame => rw [hsame]
    | inr hgone => exact hgone.thinned.registry
  | rename h name =>
    cases run_rename w hc with
    | inl hsame => rw [hsame]
    | inr hmoved =>
      obtain ⟨r, hr⟩ := hmoved
      rw [hr]
      exact (keeps_repoint r.outcome.2 r.outcome.1).registry.trans r.follows_outcome.partial_.registry
  | resolve => exact (keeps_resolveAll g).registry
  | sweep => exact (keeps_sweep g).registry
  | freeze => rfl
  | edit f h => rfl

theorem Reached.registry_eq {r : Registry} (a : Reached (fun g c => c.Allowed g) r g) :
    g.registry = r := by
  induction a with
  | new => exact (grows_new (P := fun _ _ => True) (fun _ _ => trivial) r).registry_eq
  | change a hc ih => exact (registry_run a.wellFormed hc).trans ih

theorem keepsKinds_presets {ps : List Preset} {r : Registry} (h : Preset.registry ps = .ok r) :
    r.KeepsKinds := by
  intro clean hc isDead x y hy
  cases Preset.mem_cleaners h hc with
  | inl hd =>
    subst hd
    cases x with
    | diagram d =>
      simp only [Preset.cleanDiagram] at hy
      split at hy
      · cases hy
      · cases hy
        rfl
    | _ => cases hy
  | inr hs =>
    subst hs
    cases x with
    | schema s =>
      simp only [Preset.cleanSchema] at hy
      split at hy
      · cases hy
        rfl
      · cases hy
    | _ => cases hy

theorem Reached.rostered {r : Registry} (hr : r.KeepsKinds)
    (a : Reached (fun g c => c.Allowed g ∧ c.KeepsKind g) r g) : g.Rostered := by
  induction a with
  | new => exact rostered_new r
  | change a hc ih =>
    have a := a.mono fun _ _ h => h.1
    exact ih.run a.wellFormed (a.registry_eq.symm ▸ hr) hc.1 hc.2

/-- Whatever is done to a graph by additions, deletions, renamings, resolution, sweeps, freezing and
edits within the kinds of bodies, its index, its roster, its packages and its paths agree, as long as
packages come in empty and keep their lists in edits. -/
theorem containers_agree {r : Registry} (hr : r.KeepsKinds)
    (a : Reached (fun g c => c.Plain g ∧ c.KeepsLists g) r g) : g.WellFormed ∧ g.Rostered := by
  have a := a.mono fun _ _ h => Change.allowed_and_keepsKind_iff.mpr h
  exact ⟨(a.mono fun _ _ h => h.1).wellFormed, a.rostered hr⟩

theorem containers_agree_after_deletion :
    ((Change.delete ⟨13⟩).run
      ((Change.create ⟨"model::Firm"⟩ (.class {})).run
        ((Change.rename ⟨12⟩ "Human").run
          ((Change.create ⟨"Person"⟩ (.class {})).run (new Preset.full))))).WellFormed ∧
    ((Change.delete ⟨13⟩).run
      ((Change.create ⟨"model::Firm"⟩ (.class {})).run
        ((Change.rename ⟨12⟩ "Human").run
          ((Change.create ⟨"Person"⟩ (.class {})).run (new Preset.full))))).Rostered :=
  containers_agree (keepsKinds_presets Preset.registry_all)
    ((((Reached.new.change ⟨trivial, rfl⟩).change ⟨⟨⟨_, rfl, rfl⟩, by decide⟩, trivial⟩).change
      ⟨trivial, rfl⟩).change ⟨trivial, trivial⟩)

def owningGraph (r : Registry) (b : Body) : Graph := (Change.create ⟨"a::B"⟩ b).run (new r)

theorem run_create_nested {p q : Path} {o : Handle} (hp : p.fault? = none)
    (hq : p.package? = some q) (hr : q.package? = none) (hfree : g.lookup q = none)
    (hmade : (g.addStep (.new q.name (.package [])) none).2.toOption = some o) (b : Body) :
    (Change.create p b).run g =
      ((g.addStep (.new q.name (.package [])) none).1.addStep (.new p.name b) (some o)).1 := by
  have hens := ensurePackage_root hfree hr
  rw [Change.run]
  generalize g.addStep (.new q.name (.package [])) none = made at hmade hens
  obtain ⟨g₁, result⟩ := made
  cases result with
  | error fault => cases hmade
  | ok h =>
    cases hmade
    rw [create_of_ensured hp hq hens]

theorem owningGraph_eq (r : Registry) (b : Body) : owningGraph r b =
    (((new r).addStep (.new "a" (.package [])) none).1.addStep (.new "B" b) (some ⟨12⟩)).1 :=
  run_create_nested (q := ⟨"a"⟩) (by decide) (by decide) (by decide) rfl rfl b

theorem reached_owningGraph {r : Registry} (b : Body) :
    Reached (fun g c => c.Plain g) r (owningGraph r b) :=
  Reached.new.change (c := .create ⟨"a::B"⟩ b) trivial

/-- A package of which the list is replaced disowns what it owns, and one that comes in with a list
claims what another one owns. -/
theorem not_wellFormed_put :
    (∃ g, Reached (fun g c => c.Plain g) Preset.full g ∧ g.body? ⟨12⟩ = some (.package []) ∧
      (∃ e, g.LiveAt ⟨13⟩ e ∧ e.package = some ⟨12⟩) ∧ ¬g.WellFormed) ∧
    ∃ g, Reached (fun g c => c.Plain g) Preset.full g ∧ g.body? ⟨14⟩ = some (.package [⟨13⟩]) ∧
      (∃ e, g.LiveAt ⟨13⟩ e ∧ e.package = some ⟨12⟩) ∧ ¬g.WellFormed := by
  have hreached := reached_owningGraph (r := Preset.full) (.class {})
  rw [owningGraph_eq] at hreached
  refine ⟨⟨_, hreached.change (c := .put [] ⟨12⟩) (Change.plain_put rfl), rfl,
    ⟨_, ⟨rfl, rfl⟩, rfl⟩, fun w => ?_⟩,
    ⟨_, hreached.change (c := .create ⟨"x"⟩ (.package [⟨13⟩])) trivial, rfl,
      ⟨_, ⟨rfl, rfl⟩, rfl⟩, fun w => ?_⟩⟩
  · obtain ⟨p, hp, -, -, hcount⟩ := w.owner ⟨13⟩ _ ⟨12⟩ ⟨rfl, rfl⟩ rfl
    cases hp.1
    cases hcount
  · obtain ⟨e, he, ho⟩ := w.owned ⟨14⟩ _ ⟨13⟩ rfl List.mem_cons_self
    cases he.1
    cases ho

end Graph
end ModelGraph
