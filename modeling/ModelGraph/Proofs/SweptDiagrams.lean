import ModelGraph.Proofs.AnchoredGraphs

namespace ModelGraph

namespace Diagram

variable {isDead : Handle → Bool} {d : Diagram}

def condemns (isDead : Handle → Bool) (d : Diagram) (v : ClassView) : Bool :=
  d.views.any fun w => w.isDead isDead && w.id == v.id

theorem contains_deadViews (v : ClassView) :
    (d.deadViews isDead).contains v.id = d.condemns isDead v := by
  rw [Bool.eq_iff_iff]
  simp [deadViews, condemns, and_assoc]

theorem condemns_of_dead {v : ClassView} (hv : v ∈ d.views) (hd : v.isDead isDead = true) :
    d.condemns isDead v = true :=
  List.any_eq_true.mpr ⟨v, hv, by simp [hd]⟩

theorem isEmpty_deadViews : (d.deadViews isDead).isEmpty = !d.views.any (·.isDead isDead) := by
  rw [Bool.eq_iff_iff]
  simp [deadViews]

def cleared (isDead : Handle → Bool) (d : Diagram) : Diagram := d.removeViews (d.deadViews isDead)

theorem views_cleared :
    (d.cleared isDead).views = d.views.filter fun v => !d.condemns isDead v := by
  simp only [cleared, removeViews, contains_deadViews]

theorem mem_views_cleared {v : ClassView} :
    v ∈ (d.cleared isDead).views ↔ v ∈ d.views ∧ d.condemns isDead v = false := by
  rw [views_cleared, List.mem_filter, Bool.not_eq_true']

theorem alive_of_mem_cleared {v : ClassView} (hv : v ∈ (d.cleared isDead).views) :
    v.isDead isDead = false := by
  obtain ⟨hmem, hc⟩ := mem_views_cleared.mp hv
  rw [Bool.eq_false_iff]
  intro hd
  rw [condemns_of_dead hmem hd] at hc
  cases hc

theorem lines_cleared : (d.cleared isDead).lines = d.lines.filter fun l =>
    decide (∀ v ∈ d.views, v ∉ (d.cleared isDead).views → l.source ≠ v.id ∧ l.target ≠ v.id) := by
  refine List.filter_congr fun l _ => ?_
  rw [Bool.eq_iff_iff, decide_eq_true_eq, Bool.not_eq_true', List.any_eq_false]
  have htouches (v : ClassView) :
      ¬l.touches v.id = true ↔ l.source ≠ v.id ∧ l.target ≠ v.id := by
    simp [GeneralizationView.touches]
  constructor
  · intro h v hv hgone
    rw [mem_views_cleared, not_and, Bool.not_eq_false] at hgone
    rw [← contains_deadViews, List.contains_iff_mem] at hgone
    exact (htouches v).mp (h v.id (hgone hv))
  · intro h id hid
    obtain ⟨v, hv, rfl⟩ := List.mem_map.mp hid
    obtain ⟨hv, hdead⟩ := List.mem_filter.mp hv
    refine (htouches v).mpr (h v hv fun hleft => ?_)
    rw [alive_of_mem_cleared hleft] at hdead
    cases hdead

theorem deadViews_cleared : (d.cleared isDead).deadViews isDead = [] := by
  rw [deadViews, List.map_eq_nil_iff, List.filter_eq_nil_iff]
  intro v hv
  rw [alive_of_mem_cleared hv]
  exact Bool.false_ne_true

/-- Exactly the boxes of dead classes go if none of them has its id in common with a box that shows
a class that is not dead. -/
theorem views_cleared_eq_iff :
    (d.cleared isDead).views = d.views.filter (fun v => !v.isDead isDead) ↔
      ∀ v ∈ d.views, ∀ w ∈ d.views, v.isDead isDead = false → w.isDead isDead = true →
        v.id ≠ w.id := by
  constructor
  · intro h v hv w hw hlive hdead heq
    have hleft : v ∈ (d.cleared isDead).views := by
      rw [h, List.mem_filter, hlive]
      exact ⟨hv, rfl⟩
    have hgoes : d.condemns isDead v = true := List.any_eq_true.mpr ⟨w, hw, by simp [hdead, heq]⟩
    rw [(mem_views_cleared.mp hleft).2] at hgoes
    cases hgoes
  · intro h
    rw [views_cleared]
    refine List.filter_congr fun v hv => ?_
    cases hd : v.isDead isDead with
    | true => rw [condemns_of_dead hv hd]
    | false =>
      refine congrArg (!·) (List.any_eq_false.mpr fun w hw hgoes => ?_)
      simp only [Bool.and_eq_true, beq_iff_eq] at hgoes
      exact h v hv w hw hd hgoes.1 hgoes.2.symm

end Diagram

/-- A registry with the cleaner of diagrams in which no other cleaner touches a diagram. -/
structure Registry.ClearsDiagrams (r : Registry) : Prop where
  installed : Preset.cleanDiagram ∈ r.cleaners
  others : ∀ c ∈ r.cleaners, c = Preset.cleanDiagram ∨ ∀ isDead d, c isDead (.diagram d) = none

theorem clearsDiagrams_presets {ps : List Preset} {r : Registry} (hr : Preset.registry ps = .ok r)
    (hd : .diagram ∈ ps) : r.ClearsDiagrams where
  installed := by
    rw [Preset.cleaners_registry hr, List.mem_flatMap]
    exact ⟨.diagram, hd, List.mem_cons_self⟩
  others c hc := by
    rcases Preset.mem_cleaners hr hc with rfl | rfl
    · exact .inl rfl
    · exact .inr fun _ _ => rfl

namespace Graph

variable {g : Graph} {r : Registry} {isDead : Handle → Bool} {e : Element} {d : Diagram}

/-- The element of a diagram once some classes are dead: it has a new revision if it showed one. -/
def clearedDiagram (isDead : Handle → Bool) (d : Diagram) (e : Element) : Element :=
  if d.views.any (·.isDead isDead) then e.edit fun _ => .extension (.diagram (d.cleared isDead))
  else e

theorem cleaned_cleanDiagram (hb : e.body = .extension (.diagram d)) :
    cleaned isDead Preset.cleanDiagram e = clearedDiagram isDead d e := by
  simp only [cleaned, hb, Preset.cleanDiagram, Diagram.isEmpty_deadViews, clearedDiagram]
  cases d.views.any (·.isDead isDead) <;> rfl

theorem cleaned_of_none {c : Cleaner} (hb : e.body = .extension (.diagram d))
    (hc : c isDead (.diagram d) = none) : cleaned isDead c e = e := by
  simp only [cleaned, hb, hc]

theorem cleared_of_none_dead (h : d.views.any (·.isDead isDead) = false) :
    d.cleared isDead = d := by
  have hids : d.deadViews isDead = [] := by
    rw [← List.isEmpty_iff, Diagram.isEmpty_deadViews, h]
    rfl
  simp [Diagram.cleared, hids, Diagram.removeViews]

theorem body_clearedDiagram (hb : e.body = .extension (.diagram d)) :
    (clearedDiagram isDead d e).body = .extension (.diagram (d.cleared isDead)) := by
  rw [clearedDiagram]
  split
  · rfl
  · next h => rw [hb, cleared_of_none_dead (by simpa using h)]

theorem cleanedAll_of_clear {cs : List Cleaner} (hb : e.body = .extension (.diagram d))
    (hd : d.views.any (·.isDead isDead) = false)
    (hcs : ∀ c ∈ cs, c = Preset.cleanDiagram ∨ ∀ isDead d, c isDead (.diagram d) = none) :
    cleanedAll isDead cs e = e := by
  induction cs with
  | nil => rfl
  | cons c cs ih =>
    have hstep : cleaned isDead c e = e := by
      rcases hcs c List.mem_cons_self with rfl | hnone
      · rw [cleaned_cleanDiagram hb, clearedDiagram, hd, if_neg Bool.false_ne_true]
      · exact cleaned_of_none hb (hnone isDead d)
    rw [cleanedAll, List.foldl_cons, hstep]
    exact ih fun c hc => hcs c (List.mem_cons_of_mem _ hc)

/-- What the cleaners leave of a diagram. The first turn of its own cleaner takes out all that it
ever takes out. -/
theorem cleanedAll_diagram {cs : List Cleaner} (hb : e.body = .extension (.diagram d))
    (hmem : Preset.cleanDiagram ∈ cs)
    (hcs : ∀ c ∈ cs, c = Preset.cleanDiagram ∨ ∀ isDead d, c isDead (.diagram d) = none) :
    cleanedAll isDead cs e = clearedDiagram isDead d e := by
  induction cs with
  | nil => cases hmem
  | cons c cs ih =>
    have hrest := fun c hc => hcs c (List.mem_cons_of_mem _ hc)
    by_cases hc : c = Preset.cleanDiagram
    · have hclear : (d.cleared isDead).views.any (·.isDead isDead) = false := by
        have hids : ((d.cleared isDead).deadViews isDead).isEmpty = true := by
          rw [Diagram.deadViews_cleared]
          rfl
        simpa [Diagram.isEmpty_deadViews] using hids
      rw [cleanedAll, List.foldl_cons, hc, cleaned_cleanDiagram hb]
      exact cleanedAll_of_clear (body_clearedDiagram hb) hclear hrest
    · have hnone := (hcs c List.mem_cons_self).resolve_left hc
      have htail := (List.mem_cons.mp hmem).resolve_left (Ne.symm hc)
      rw [cleanedAll, List.foldl_cons, cleaned_of_none hb (hnone isDead d)]
      exact ih htail hrest

theorem prune_diagram (hb : e.body = .extension (.diagram d)) : (e.prune isDead).1 = e := by
  refine (e.swept_prune isDead).eq_self fun x hx => ?_
  rw [hb] at hx
  cases hx

/-- In an anchored graph a box is not dead if its class is unbound or bound to an element that is
alive. -/
theorem isDead_eq_false_iff (a : g.Anchored) {h : Handle} (he : g.element? h = some e)
    (hb : e.body = .extension (.diagram d)) {v : ClassView} (hv : v ∈ d.views) :
    v.isDead g.isDeleted = false ↔
      v.shown.target = none ∨ ∃ t x, v.shown.target = some t ∧ g.LiveAt t x := by
  rw [ClassView.isDead]
  cases ht : v.shown.target with
  | none => simp
  | some t =>
    have hlink : v.shown.link ∈ e.body.links := by
      rw [hb]
      exact List.mem_map_of_mem hv
    obtain ⟨x, hx⟩ := a h e he _ hlink t ht
    simp [isDeleted, LiveAt, hx]

theorem liveAt_sweep_diagram (hc : r.ClearsDiagrams) (k : Kept r g) {h : Handle}
    (hl : g.LiveAt h e) (hb : e.body = .extension (.diagram d)) :
    g.sweep.1.LiveAt h (clearedDiagram g.isDeleted d e) := by
  refine (liveAt_sweep k.wellFormed).mpr ⟨e, hl, ?_⟩
  rw [prune_diagram hb, k.registry_eq, cleanedAll_diagram hb hc.installed hc.others]

/-- What a sweep leaves of a diagram that is alive. The boxes that go are those of deleted classes
and those with the id of such a box, the lines that go are those that name the id of a box that has
gone; what is left stays in its order. So no box goes but those of deleted classes if these share
their ids with no other box, and only then. -/
theorem sweep_diagram (hr : r.OnlyRemoves) (hc : r.ClearsDiagrams) (k : Kept r g) {h : Handle}
    (hl : g.LiveAt h e) (hb : e.body = .extension (.diagram d)) :
    ∃ e' d', g.sweep.1.LiveAt h e' ∧ e'.body = .extension (.diagram d') ∧
      e' = (if d.views.any (·.isDead g.isDeleted) then e.edit fun _ => .extension (.diagram d')
        else e) ∧
      (∀ v ∈ d.views, v.isDead g.isDeleted = false ↔
        v.shown.target = none ∨ ∃ t x, v.shown.target = some t ∧ g.LiveAt t x) ∧
      d'.views = (d.views.filter fun v =>
        !d.views.any fun w => w.isDead g.isDeleted && w.id == v.id) ∧
      d'.lines = (d.lines.filter fun l =>
        decide (∀ v ∈ d.views, v ∉ d'.views → l.source ≠ v.id ∧ l.target ≠ v.id)) ∧
      (d'.views = d.views.filter (fun v => !v.isDead g.isDeleted) ↔
        ∀ v ∈ d.views, ∀ w ∈ d.views, v.isDead g.isDeleted = false →
          w.isDead g.isDeleted = true → v.id ≠ w.id) := by
  exact ⟨clearedDiagram g.isDeleted d e, d.cleared g.isDeleted, liveAt_sweep_diagram hc k hl hb,
    body_clearedDiagram hb, rfl, fun v hv => isDead_eq_false_iff (k.anchored hr) hl.1 hb hv,
    Diagram.views_cleared, Diagram.lines_cleared, Diagram.views_cleared_eq_iff⟩

def boxOf (id path : String) : ClassView :=
  { id, shown := .ofText path, x := ⟨0⟩, y := ⟨0⟩, width := ⟨0⟩, height := ⟨0⟩ }

/-- A diagram of two classes, of which the first was deleted. -/
def boxesGraph (first second : String) : Graph :=
  (Change.delete ⟨12⟩).run (Change.resolve.run
    ((Change.create ⟨"D"⟩ (.extension (.diagram {
        views := [boxOf first "A", boxOf second "B"]
        lines := [⟨first, second⟩, ⟨second, second⟩] }))).run
      ((Change.create ⟨"B"⟩ (.class {})).run
        ((Change.create ⟨"A"⟩ (.class {})).run (new Preset.full)))))

theorem kept_boxesGraph (first second : String) : Kept Preset.full (boxesGraph first second) :=
  ((((Kept.new.create ⟨"A"⟩ rfl (by decide)).create ⟨"B"⟩ rfl (by decide)).create ⟨"D"⟩ rfl
    (by simp [Body.links, Extension.links, Diagram.links, boxOf, Reference.link,
      Reference.ofText])).change (c := .resolve) trivial trivial trivial).change (c := .delete ⟨12⟩)
      trivial trivial trivial

def boxesOf (first second : String) : Diagram where
  views := [{ boxOf first "A" with shown := .bound ⟨"A"⟩ ⟨12⟩ },
    { boxOf second "B" with shown := .bound ⟨"B"⟩ ⟨13⟩ }]
  lines := [⟨first, second⟩, ⟨second, second⟩]

theorem sweep_diagram_boxes : ∃ e' d', (boxesGraph "a" "b").sweep.1.LiveAt ⟨14⟩ e' ∧
    e'.body = .extension (.diagram d') ∧
    d'.views = [{ boxOf "b" "B" with shown := .bound ⟨"B"⟩ ⟨13⟩ }] ∧ d'.lines = [⟨"b", "b"⟩] := by
  obtain ⟨e, hl, hb⟩ : ∃ e, (boxesGraph "a" "b").LiveAt ⟨14⟩ e ∧
      e.body = .extension (.diagram (boxesOf "a" "b")) := ⟨_, ⟨rfl, rfl⟩, rfl⟩
  obtain ⟨e', d', hl', hb', -, -, hviews, hlines, -⟩ :=
    sweep_diagram (onlyRemoves_presets Preset.registry_all)
      (clearsDiagrams_presets Preset.registry_all (by decide)) (kept_boxesGraph "a" "b") hl hb
  have hleft : d'.views = [{ boxOf "b" "B" with shown := .bound ⟨"B"⟩ ⟨13⟩ }] := hviews.trans rfl
  refine ⟨e', d', hl', hb', hleft, ?_⟩
  rw [hlines, hleft]
  decide

theorem living_box_goes : Kept Preset.full (boxesGraph "v" "v") ∧ ∃ e d v x e' d',
    (boxesGraph "v" "v").LiveAt ⟨14⟩ e ∧ e.body = .extension (.diagram d) ∧ v ∈ d.views ∧
      v.shown.target = some ⟨13⟩ ∧ (boxesGraph "v" "v").LiveAt ⟨13⟩ x ∧
      (boxesGraph "v" "v").sweep.1.LiveAt ⟨14⟩ e' ∧ e'.body = .extension (.diagram d') ∧
      v ∉ d'.views := by
  have k := kept_boxesGraph "v" "v"
  obtain ⟨e, hl, hb⟩ : ∃ e, (boxesGraph "v" "v").LiveAt ⟨14⟩ e ∧
      e.body = .extension (.diagram (boxesOf "v" "v")) := ⟨_, ⟨rfl, rfl⟩, rfl⟩
  have hswept := liveAt_sweep_diagram
    (clearsDiagrams_presets Preset.registry_all (by decide)) k hl hb
  have hgone : ((boxesOf "v" "v").cleared (boxesGraph "v" "v").isDeleted).views = [] := rfl
  refine ⟨k, e, _, { boxOf "v" "B" with shown := .bound ⟨"B"⟩ ⟨13⟩ }, _, _, _, hl, hb,
    List.mem_cons_of_mem _ List.mem_cons_self, rfl, ⟨rfl, rfl⟩, hswept, body_clearedDiagram hb, ?_⟩
  rw [hgone]
  exact List.not_mem_nil

end Graph
end ModelGraph
