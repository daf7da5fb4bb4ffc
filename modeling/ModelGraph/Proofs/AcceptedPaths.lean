import ModelGraph.Proofs.Changes
import ModelGraph.Proofs.Evolution

namespace ModelGraph

namespace Change

/-- The changes that bring elements to their paths: new elements own nothing, and a renamed element
is alive. Paths and names are any texts. -/
def Populates (g : Graph) : Change → Prop
  | .create _ body => body.children = []
  | .add e _ => e.deleted = false ∧ e.body.children = []
  | .rename h _ => ∃ e, g.LiveAt h e
  | _ => False

/-- The name that an element gets by itself, and not as part of a path, is a segment. -/
def GivesSegment : Change → Prop
  | .add e _ => Path.IsSegment e.name
  | .rename _ name => Path.IsSegment name
  | _ => True

instance (c : Change) : Decidable c.GivesSegment := by
  cases c <;> unfold GivesSegment <;> infer_instance

theorem Populates.allowed {g : Graph} {c : Change} (hp : c.Populates g) (hs : c.GivesSegment) :
    c.Allowed g := by
  cases c with
  | create path body => exact hp
  | add e owner => exact ⟨hp.1, hp.2, hs⟩
  | rename h name => exact ⟨hp, hs⟩
  | _ => exact hp.elim

end Change

namespace Graph

variable {g : Graph}

/-- The paths of all elements that are alive are accepted, and to cut one gives the name of the
element and the path of its package. -/
def PathsAccepted (g : Graph) : Prop :=
  ∀ h e, g.LiveAt h e →
    e.path.fault? = none ∧ e.path.name = e.name ∧ e.path.package? = e.package.map g.pathOf

/-- What holds of a graph before, between and after some changes. -/
def Throughout (P : Graph → Prop) : List Change → Graph → Prop
  | [], g => P g
  | c :: cs, g => P g ∧ Throughout P cs (c.run g)

/-- What holds of each of some changes and the graph that it is made to. -/
def EachStep (sort : Graph → Change → Prop) : List Change → Graph → Prop
  | [], _ => True
  | c :: cs, g => sort g c ∧ EachStep sort cs (c.run g)

theorem Throughout.head {P : Graph → Prop} {cs : List Change} (t : Throughout P cs g) : P g := by
  cases cs with
  | nil => exact t
  | cons c cs => exact t.1

theorem WellFormed.pathsAccepted (w : g.WellFormed) : g.PathsAccepted := by
  intro h e hl
  exact ⟨w.fault?_path hl, w.name_path hl, w.package?_path hl⟩

theorem PathsAccepted.isSegment (a : g.PathsAccepted) {h : Handle} {e : Element}
    (hl : g.LiveAt h e) : Path.IsSegment e.name := by
  obtain ⟨hf, hn, -⟩ := a h e hl
  exact hn ▸ Path.isSegment_name hf

theorem liveAt_run_add {e : Element} {owner : Option Handle}
    (hne : (Change.add e owner).run g ≠ g) (hd : e.deleted = false) :
    ∃ h x, ((Change.add e owner).run g).LiveAt h x ∧ x.name = e.name := by
  rw [Change.run, addStep] at hne ⊢
  cases ha : g.addElement e owner with
  | error fault =>
    rw [ha] at hne
    exact absurd rfl hne
  | ok added =>
    obtain ⟨rfl, -, howner, -⟩ := addElement_eq_ok ha
    have hslot : ∀ o, owner = some o → o.slot < g.elements.size := by
      intro o ho
      obtain ⟨p, hp, -⟩ := howner o ho
      exact slot_lt_of_element? hp.1
    refine ⟨⟨g.elements.size⟩, e.attach owner (Path.join (owner.map g.pathOf) e.name),
      ⟨?_, hd⟩, rfl⟩
    exact (element?_push _ _ _ _ _ hslot).trans (if_pos rfl)

theorem liveAt_run_rename {h : Handle} {e : Element} {name : String}
    (hne : (Change.rename h name).run g ≠ g) (hl : g.LiveAt h e) :
    ∃ x, ((Change.rename h name).run g).LiveAt h x ∧ x.name = name := by
  rw [Change.run] at hne ⊢
  cases hr : g.rename h name with
  | error fault =>
    rw [hr] at hne
    exact absurd rfl hne
  | ok g' =>
    rw [hr] at hne
    obtain rfl | ⟨new, moves, rfl⟩ := rename_steps hl.1 hr
    · exact absurd rfl hne
    · -- What follows the change of the name leaves names alone, and what is deleted.
      let π (e : Element) : String × Bool := (e.name, e.deleted)
      have hmoved := (lasting_eq π).evolves_relocateTree (fun _ _ => rfl) g.fuel h new
        (g.renamed h e.path name new, moves)
      have hfollowed := (lasting_eq π).evolves_repoint (fun _ _ => rfl)
        (relocateTree g.fuel h new (g.renamed h e.path name new, moves)).2
        (relocateTree g.fuel h new (g.renamed h e.path name new, moves)).1
      have hroot : (g.renamed h e.path name new).element? h = some (e.rename name new) := by
        rw [renamed, element?_update, if_pos rfl]
        exact congrArg (Option.map _) hl.1
      have hmap := ((lasting_eq π).evolves_trans hmoved hfollowed).map_eq h
      rw [hroot, Option.map_some, Option.map_eq_some_iff] at hmap
      obtain ⟨x, hx, hπ⟩ := hmap
      obtain ⟨hname, hdeleted⟩ := Prod.mk.inj hπ
      exact ⟨x, ⟨hx, hdeleted.trans hl.2⟩, hname⟩

/-- After a change that has an effect, only the names that it gives can tell that paths are not
accepted. -/
theorem PathsAccepted.givesSegment {c : Change} (hp : c.Populates g) (hne : c.run g ≠ g)
    (a : (c.run g).PathsAccepted) : c.GivesSegment := by
  cases c with
  | add e owner =>
    obtain ⟨h, x, hl, hn⟩ := liveAt_run_add hne hp.1
    rw [Change.GivesSegment, ← hn]
    exact a.isSegment hl
  | rename h name =>
    obtain ⟨e, hl⟩ := hp
    obtain ⟨x, hl', hn⟩ := liveAt_run_rename hne hl
    rw [Change.GivesSegment, ← hn]
    exact a.isSegment hl'
  | _ => trivial

theorem Throughout.eachGivesSegment {cs : List Change} (ht : Throughout PathsAccepted cs g)
    (hc : EachStep (fun g c => c.Populates g) cs g) :
    EachStep (fun g c => c.run g = g ∨ c.GivesSegment) cs g := by
  induction cs generalizing g with
  | nil => trivial
  | cons c cs ih =>
    obtain ⟨hp, hcs⟩ := hc
    refine ⟨?_, ih ht.2 hcs⟩
    by_cases hsame : c.run g = g
    · exact .inl hsame
    · exact .inr (ht.2.head.givesSegment hp hsame)

theorem WellFormed.throughout {P : Graph → Prop} {sort : Graph → Change → Prop}
    (hP : ∀ g, g.WellFormed → P g) (hsort : ∀ g c, sort g c → c.GivesSegment → c.Allowed g)
    (w : g.WellFormed) {cs : List Change} (hc : EachStep sort cs g)
    (hs : EachStep (fun g c => c.run g = g ∨ c.GivesSegment) cs g) : Throughout P cs g := by
  induction cs generalizing g with
  | nil => exact hP g w
  | cons c cs ih =>
    obtain ⟨hstep, hcs⟩ := hc
    obtain ⟨hgives, hall⟩ := hs
    refine ⟨hP g w, ih ?_ hcs hall⟩
    cases hgives with
    | inl hsame =>
      rw [hsame]
      exact w
    | inr hsegment => exact w.run (hsort g c hstep hsegment)

/-- From the new graph on, whatever elements are created, added and renamed: all paths are accepted
all the time exactly if every element that was really added, or really renamed, was given a segment
for its name. -/
theorem paths_accepted_iff {r : Registry} {cs : List Change}
    (hc : EachStep (fun g c => c.Populates g) cs (new r)) :
    Throughout PathsAccepted cs (new r) ↔
      EachStep (fun g c => c.run g = g ∨ c.GivesSegment) cs (new r) := by
  constructor
  · intro ht
    exact ht.eachGivesSegment hc
  · intro hs
    exact (wellFormed_new r).throughout (fun _ w => w.pathsAccepted)
      (fun _ _ hp hs => hp.allowed hs) hc hs

def classChanges (name : String) : List Change :=
  [.create ⟨"a"⟩ (.package []), .add (.new "b" (.class {})) (some ⟨12⟩), .rename ⟨13⟩ name]

theorem paths_accepted_class : Throughout PathsAccepted (classChanges "c") (new Preset.full) ∧
    ¬Throughout PathsAccepted (classChanges ":c") (new Preset.full) := by
  have hc (name : String) :
      EachStep (fun g c => c.Populates g) (classChanges name) (new Preset.full) :=
    ⟨rfl, ⟨rfl, rfl⟩, ⟨_, rfl, rfl⟩, trivial⟩
  constructor
  · apply (paths_accepted_iff (hc "c")).mpr
    exact ⟨.inr trivial, .inr (by decide), .inr (by decide), trivial⟩
  · intro ht
    obtain ⟨-, -, hs, -⟩ := (paths_accepted_iff (hc ":c")).mp ht
    rcases hs with hsame | hs
    · have hname := congrArg (fun g => (g.element? ⟨13⟩).map Element.name) hsame
      exact absurd hname (by decide)
    · exact absurd hs (by decide)

theorem added_path_not_accepted : ∃ e,
    EachStep (fun g c => c.Populates g)
      [.create ⟨"a"⟩ (.package []), .add (.new ":b" (.class {})) (some ⟨12⟩)] (new Preset.full) ∧
    ((Change.add (.new ":b" (.class {})) (some ⟨12⟩)).run
      ((Change.create ⟨"a"⟩ (.package [])).run (new Preset.full))).LiveAt ⟨13⟩ e ∧
    e.path = ⟨"a:::b"⟩ ∧ e.path.fault? = some (.strayColon ":b") ∧ e.name = ":b" ∧
    e.path.name = "b" ∧ e.path.package? = some ⟨"a:"⟩ :=
  ⟨_, ⟨rfl, ⟨rfl, rfl⟩, trivial⟩, ⟨rfl, rfl⟩, rfl, rfl, rfl, rfl, rfl⟩

end Graph
end ModelGraph
