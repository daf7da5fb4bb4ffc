import ModelGraph.Proofs.AcceptedPaths
import ModelGraph.Proofs.EnrolledGraphs

namespace ModelGraph

namespace Change

/-- Creations, deletions and renamings of elements that are alive; what is created owns nothing. -/
def Reshapes (g : Graph) : Change → Prop
  | .create _ body => body.children = []
  | .delete _ => True
  | .rename h _ => ∃ e, g.LiveAt h e
  | _ => False

/-- A renaming moves what is last already, in the order in which it moves it, and no element loses its
path to another one. -/
def KeepsOrder (g : Graph) : Change → Prop
  | .rename h name =>
    g.subtree h <:+ g.live.map Prod.fst ∧ ((Change.rename h name).run g).Indexed
  | _ => True

theorem Reshapes.allowed {g : Graph} {c : Change} (hc : c.Reshapes g) (hs : c.GivesSegment) :
    c.Allowed g := by
  cases c with
  | create path body => exact hc
  | delete h => trivial
  | rename h name => exact ⟨hc, hs⟩
  | _ => exact hc.elim

end Change

namespace Graph

variable {g g' : Graph} {e : Element} {owner : Option Handle} {c : Change} {cs : List Change}

def Earlier (x y : Handle × Element) : Prop := x.1.Before y.1

instance : Std.Irrefl Earlier := ⟨fun x => Std.Irrefl.irrefl x.1⟩

instance : Std.Antisymm Earlier :=
  ⟨fun _ _ hlt hgt => absurd (Nat.lt_trans hlt hgt) (Nat.lt_irrefl _)⟩

/-- The elements of each kind are listed as they are alive, in the order of registration. -/
structure KindsInOrder (g : Graph) : Prop where
  mem_ofKind : ∀ k h e, (h, e) ∈ g.ofKind k ↔ g.LiveAt h e ∧ e.kind = k
  earlier : ∀ k, (g.ofKind k).Pairwise Earlier

/-- All elements that are alive are listed in the order of registration, and those of a kind are
listed as they come in this list. -/
structure LiveInOrder (g : Graph) : Prop where
  mem_live : ∀ h e, (h, e) ∈ g.live ↔ g.LiveAt h e
  earlier : g.live.Pairwise Earlier
  ofKind_eq : ∀ k, g.ofKind k = g.live.filter fun x => x.2.kind == k

namespace Enrolled

variable (t : g.Enrolled)
include t

theorem kindsInOrder : g.KindsInOrder where
  mem_ofKind _ _ _ := mem_ofKind t.rostered
  earlier k := by
    have hroster := (List.pairwise_map.mp t.roster_before).filter (·.1 == k)
    refine List.pairwise_filterMap.mpr (hroster.imp ?_)
    intro r r' hb x hx y hy
    obtain ⟨e, -, rfl⟩ := Option.map_eq_some_iff.mp hx
    obtain ⟨e', -, rfl⟩ := Option.map_eq_some_iff.mp hy
    exact hb

theorem map_fst_live : g.live.map Prod.fst = g.index.values := by
  rw [live, List.map_filterMap]
  refine (List.filterMap_congr fun h hm => ?_).trans List.filterMap_some
  obtain ⟨e, hl⟩ := t.liveAt_of_mem_values hm
  rw [hl.1]
  rfl

theorem liveInOrder_iff : g.LiveInOrder ↔ g.IndexInOrder := by
  have hfst : g.live.Pairwise Earlier ↔ g.index.values.Pairwise Handle.Before := by
    rw [← t.map_fst_live, List.pairwise_map]
    rfl
  constructor
  · intro o
    refine ⟨fun h e hl => ?_, hfst.mp o.earlier⟩
    have hm := List.mem_map_of_mem (f := Prod.fst) ((o.mem_live h e).mpr hl)
    rw [t.map_fst_live, Index.mem_values_iff] at hm
    obtain ⟨p, hp⟩ := hm
    obtain ⟨x, hx, rfl⟩ := livePath?_eq_some.mp (t.sound p h hp)
    rw [hl.unique hx]
    exact hp
  · intro i
    have hmem : ∀ h e, (h, e) ∈ g.live ↔ g.LiveAt h e := by
      refine fun h e => mem_live_of_values fun k => ⟨t.liveAt_of_mem_values, ?_⟩
      rintro ⟨x, hx⟩
      exact Index.mem_values_iff.mpr ⟨x.path, i.indexed k x hx⟩
    refine ⟨hmem, hfst.mpr i.before, fun k => ?_⟩
    refine (t.kindsInOrder.earlier k).eq_of_mem_iff ((hfst.mpr i.before).filter _) ?_
    rintro ⟨h, e⟩
    rw [t.kindsInOrder.mem_ofKind, List.mem_filter, hmem, beq_iff_eq]

end Enrolled

theorem Enrolled.addStep (t : g.Enrolled) (hc : e.body.children = []) (hd : e.deleted = false)
    (owner : Option Handle) : (g.addStep e owner).1.Enrolled := by
  rw [Graph.addStep]
  cases ha : g.addElement e owner with
  | error fault => exact t
  | ok r =>
    obtain ⟨rfl, -, ho, -⟩ := addElement_eq_ok ha
    exact t.push ho hd hc

theorem IndexInOrder.addStep (i : g.IndexInOrder) (t : g.Enrolled) (hd : e.deleted = false)
    (owner : Option Handle) : (g.addStep e owner).1.IndexInOrder := by
  rw [Graph.addStep]
  cases ha : g.addElement e owner with
  | error fault => exact i
  | ok r =>
    obtain ⟨rfl, -, ho, hfree⟩ := addElement_eq_ok ha
    exact i.push ho hd t hfree

theorem Enrolled.create (t : g.Enrolled) (path : Path) {b : Body} (hb : b.children = []) :
    (g.create path b).1.Enrolled ∧ (g.IndexInOrder → (g.create path b).1.IndexInOrder) := by
  let Q (g' : Graph) : Prop := g'.Enrolled ∧ (g.IndexInOrder → g'.IndexInOrder)
  have hadd : ∀ (b : Body), b.children = [] → ∀ g' name owner, Q g' →
      Q (g'.addStep (.new name b) owner).1 := by
    rintro b hb g' name owner ⟨t', hi⟩
    exact ⟨t'.addStep hb rfl owner, fun i => (hi i).addStep t' rfl owner⟩
  exact create_induction (Q := Q) (hadd (.package []) rfl) (hadd b hb) ⟨t, id⟩ path

theorem Forested.run_rename (f : g.Forested) {h : Handle} (hl : g.LiveAt h e) (name : String) :
    (Change.rename h name).run g = g ∨
      ((Change.rename h name).run g).roster = g.roster ∧
        Directory.Shifts (g.subtree h) g.directory ((Change.rename h name).run g).directory := by
  rw [Change.run]
  cases hr : g.rename h name with
  | error fault => exact .inl rfl
  | ok g' => exact f.shifts_rename hl hr

/-- A change leaves the elements enrolled, and it leaves the index in order exactly if it has no
effect or is no renaming that upsets the order. -/
theorem Enrolled.run (t : g.Enrolled) (hc : c.Reshapes g) :
    (c.run g).Enrolled ∧
      (g.IndexInOrder → ((c.run g).IndexInOrder ↔ c.run g = g ∨ c.KeepsOrder g)) := by
  cases c with
  | create path body =>
    obtain ⟨t', hi⟩ := t.create path hc
    exact ⟨t', fun i => iff_of_true (hi i) (.inr trivial)⟩
  | delete h =>
    have a := retires_delete h g
    exact ⟨a.enrolled t, fun i => iff_of_true (a.indexInOrder i) (.inr trivial)⟩
  | rename h name =>
    obtain ⟨e, hl⟩ := hc
    rcases t.forested.run_rename hl name with hsame | ⟨hroster, s⟩
    · exact ⟨hsame.symm ▸ t, fun i => iff_of_true (hsame.symm ▸ i) (.inl hsame)⟩
    · refine ⟨t.shifts s (keepsTies_rename h name g) hroster, fun i => ?_⟩
      have hiff := i.shifts_iff s t (t.forested.nodup_subtree h)
      rw [← t.map_fst_live] at hiff
      refine hiff.trans ⟨.inr, ?_⟩
      rintro (hsame | hkeeps)
      · exact hiff.mp (hsame.symm ▸ i)
      · exact hkeeps
  | _ => exact hc.elim

theorem Enrolled.throughout_kindsInOrder (t : g.Enrolled)
    (hc : EachStep (fun g c => c.Reshapes g) cs g) : Throughout KindsInOrder cs g := by
  induction cs generalizing g with
  | nil => exact t.kindsInOrder
  | cons c cs ih => exact ⟨t.kindsInOrder, ih (t.run hc.1).1 hc.2⟩

theorem Enrolled.throughout_liveInOrder_iff (t : g.Enrolled) (o : g.LiveInOrder)
    (hc : EachStep (fun g c => c.Reshapes g) cs g) :
    Throughout LiveInOrder cs g ↔ EachStep (fun g c => c.run g = g ∨ c.KeepsOrder g) cs g := by
  induction cs generalizing g with
  | nil => exact iff_of_true o trivial
  | cons c cs ih =>
    obtain ⟨t', hiff⟩ := t.run hc.1
    have hstep := t'.liveInOrder_iff.trans (hiff (t.liveInOrder_iff.mp o))
    constructor
    · rintro ⟨-, ht⟩
      exact ⟨hstep.mp ht.head, (ih t' ht.head hc.2).mp ht⟩
    · rintro ⟨hkeeps, hall⟩
      have o' := hstep.mpr hkeeps
      exact ⟨o, (ih t' o' hc.2).mpr hall⟩

theorem Grows.enrolled {P : Path → Body → Prop} (a : Grows P g g') (t : g.Enrolled)
    (i : g.IndexInOrder) : g'.Enrolled ∧ g'.IndexInOrder := by
  induction a with
  | refl => exact ⟨t, i⟩
  | push _ f _ ih =>
    obtain ⟨t', i'⟩ := ih
    exact ⟨t'.push f.owner_live f.alive f.childless, i'.push f.owner_live f.alive t' f.free⟩

theorem enrolled_new (r : Registry) : (new r).Enrolled ∧ (new r).IndexInOrder :=
  (grows_new (P := fun _ _ => True) (fun _ _ => trivial) r).enrolled (enrolled_empty r)
    (indexInOrder_empty r)

/-- From the new graph on, whatever is created, deleted and renamed: the elements of each kind are
always listed in the order of registration. All elements together are so as long as each renaming
that has an effect moves only what is last already and takes no path away, and no longer; to take a
path away it takes a name that is no segment. -/
theorem enumerations_in_order {r : Registry} (hc : EachStep (fun g c => c.Reshapes g) cs (new r)) :
    Throughout KindsInOrder cs (new r) ∧
    (Throughout LiveInOrder cs (new r) ↔
      EachStep (fun g c => c.run g = g ∨ c.KeepsOrder g) cs (new r)) ∧
    (EachStep (fun g c => c.run g = g ∨ c.GivesSegment) cs (new r) →
      Throughout Indexed cs (new r)) := by
  obtain ⟨t, i⟩ := enrolled_new r
  refine ⟨t.throughout_kindsInOrder hc, ?_, ?_⟩
  · exact t.throughout_liveInOrder_iff (t.liveInOrder_iff.mpr i) hc
  · exact (wellFormed_new r).throughout (fun _ w => w.indexed) (fun _ _ hc hs => hc.allowed hs) hc

def classRenaming (h : Handle) : List Change :=
  [.create ⟨"A"⟩ (.class {}), .create ⟨"B"⟩ (.class {}), .rename h "C"]

theorem enumerations_in_order_classes :
    Throughout LiveInOrder (classRenaming ⟨13⟩) (new Preset.full) ∧
    ¬Throughout LiveInOrder (classRenaming ⟨12⟩) (new Preset.full) := by
  have hlast : EachStep (fun g c => c.Reshapes g) (classRenaming ⟨13⟩) (new Preset.full) :=
    ⟨rfl, rfl, ⟨_, rfl, rfl⟩, trivial⟩
  have hfirst : EachStep (fun g c => c.Reshapes g) (classRenaming ⟨12⟩) (new Preset.full) :=
    ⟨rfl, rfl, ⟨_, rfl, rfl⟩, trivial⟩
  constructor
  · obtain ⟨-, hiff, hsegments⟩ := enumerations_in_order hlast
    obtain ⟨-, -, -, hindexed⟩ :=
      hsegments ⟨.inr trivial, .inr trivial, .inr (by decide), trivial⟩
    exact hiff.mpr ⟨.inr trivial, .inr trivial, .inr ⟨by decide, hindexed⟩, trivial⟩
  · intro ht
    obtain ⟨-, -, hsame | hkeeps, -⟩ := (enumerations_in_order hfirst).2.1.mp ht
    · have hname := congrArg (fun g => (g.element? ⟨12⟩).map Element.name) hsame
      exact absurd hname (by decide)
    · exact absurd hkeeps.1 (by decide)

/-- The class that was registered first comes last once it is renamed, but not among the classes. -/
theorem renamed_class_last :
    EachStep (fun g c => c.Reshapes g) (classRenaming ⟨12⟩) (new Preset.full) ∧
    ∃ g, (classRenaming ⟨12⟩).foldl (fun g c => c.run g) (new Preset.full) = g ∧
      (g.live.filter fun x => x.2.kind == .class).map Prod.fst = [⟨13⟩, ⟨12⟩] ∧
      (g.ofKind .class).map Prod.fst = [⟨12⟩, ⟨13⟩] ∧ ¬g.LiveInOrder := by
  refine ⟨⟨rfl, rfl, ⟨_, rfl, rfl⟩, trivial⟩, _, rfl, by decide, by decide, fun o => ?_⟩
  exact absurd (congrArg (List.map Prod.fst) (o.ofKind_eq .class)) (by decide)

end Graph
end ModelGraph
