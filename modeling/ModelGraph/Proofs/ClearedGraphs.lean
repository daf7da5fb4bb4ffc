import ModelGraph.Proofs.DeadReferences
import ModelGraph.Proofs.FailedChanges
import ModelGraph.Proofs.PrimitiveTypes
import ModelGraph.Proofs.Requests

namespace ModelGraph

variable {r : Registry} {g g' : Graph}

/-- Changes that users may make, and that leave the primitive types alone. -/
def Change.Gentle (g : Graph) (c : Change) : Prop :=
  c.Allowed g ∧ c.KeepsKind g ∧ c.SparesPrimitives

def Handle.shift (n : Nat) (h : Handle) : Handle := if h.IsLater then ⟨h.slot + n⟩ else h

theorem Handle.shift_of_later {n : Nat} {h : Handle} (hh : h.IsLater) : h.shift n = ⟨h.slot + n⟩ :=
  if_pos hh

theorem Handle.shift_of_not_later {n : Nat} {h : Handle} (hh : ¬h.IsLater) : h.shift n = h :=
  if_neg hh

theorem Handle.slot_shift (n : Nat) (h : Handle) :
    (h.shift n).slot = if Graph.primitiveNames.length ≤ h.slot then h.slot + n else h.slot := by
  rw [shift, apply_ite slot]
  rfl

theorem Handle.shift_injective (n : Nat) : Function.Injective (shift n) := by
  intro h h' he
  have hslot := congrArg Handle.slot he
  rw [slot_shift, slot_shift] at hslot
  apply slot_inj.mp
  split at hslot <;> split at hslot <;> omega

namespace Graph

theorem Reached.deleteAll {sort : Graph → Change → Prop} {hs : List Handle} (a : Reached sort r g)
    (hsort : ∀ h ∈ hs, ∀ g, sort g (.delete h)) : Reached sort r (g.deleteAll hs) := by
  refine List.foldlRecOn hs _ a ?_
  intro g' a' h hh
  exact a'.change (hsort h hh g')

/-- In a graph that is not frozen a deletion succeeds, or there is nothing to delete. -/
theorem retired_delete (w : g.WellFormed) (hf : g.frozen = false) (h : Handle) :
    Retired h g ((Change.delete h).run g) ∧ ((Change.delete h).run g).frozen = false := by
  have hsame (hgone : g.Gone h) : Retired h g g := ⟨w, id, .refl _ _, hgone⟩
  rw [Change.run, delete]
  cases he : g.element? h with
  | none =>
    refine ⟨hsame ?_, hf⟩
    intro e hl
    cases he.symm.trans hl.1
  | some e =>
    by_cases hd : e.deleted = true
    · simp only [if_pos hd]
      refine ⟨hsame ?_, hf⟩
      intro x hl
      cases he.symm.trans hl.1
      cases hd.symm.trans hl.2
    · simp only [if_neg hd, hf, Bool.false_eq_true, if_false]
      refine ⟨retired_retireTree g.fuel w ?_, (outcome_deleteSteps g.fuel h hf).2⟩
      rw [fuel]
      omega

theorem thinned_deleteAll (w : g.WellFormed) (hf : g.frozen = false) (hs : List Handle) :
    Thinned 0 g (g.deleteAll hs) ∧ (g.deleteAll hs).frozen = false ∧
      ∀ h ∈ hs, (g.deleteAll hs).Gone h := by
  induction hs generalizing g with
  | nil => exact ⟨.refl 0 g, hf, fun _ hm => absurd hm List.not_mem_nil⟩
  | cons h hs ih =>
    obtain ⟨hr, hf'⟩ := retired_delete w hf h
    obtain ⟨ht, hfrozen, hgone⟩ := ih hr.wellFormed hf'
    refine ⟨(hr.thinned.mono (Nat.zero_le _)).trans ht, hfrozen, ?_⟩
    intro k hk
    rcases List.mem_cons.mp hk with rfl | hk
    · exact hr.gone.thinned ht
    · exact hgone k hk

/-- Whatever is alive is at the root or below something that is alive there, so that nothing is left
when the roots are gone. -/
theorem not_isLater_of_liveAt (s : Seeded r g) (w : g.WellFormed)
    (hroots : ∀ h e, h.IsLater → g.LiveAt h e → e.package ≠ none) (h : Handle) (e : Element)
    (hl : g.LiveAt h e) : ¬h.IsLater := by
  induction hn : h.slot using Nat.strongRecOn generalizing h e with
  | ind n ih =>
    intro hh
    cases ho : e.package with
    | none => exact hroots h e hh hl ho
    | some o =>
      obtain ⟨p, hp, hk, hlt, _⟩ := w.owner h e o hl ho
      exact ih o.slot (hn ▸ hlt) o p hp rfl (s.isLater_of_package hp.1 hk)

theorem renumber_isPrimitive {φ : Handle → Handle} {e : Element} (he : e.IsPrimitive) :
    e.renumber φ = e := by
  obtain ⟨n, rfl⟩ := he
  rfl

theorem not_isLater_of_mem_entries {e : Path × Handle} (he : e ∈ (new r).index.entries) :
    ¬e.2.IsLater := by
  obtain ⟨x, hl, _⟩ := ((wellFormed_new r).lookup_iff e.1 e.2).mp (Index.get?_eq_some_iff.mpr he)
  exact not_isLater_new hl.1

theorem not_isLater_of_mem_roster {post : Kind × Handle} (hp : post ∈ (new r).roster) :
    ¬post.2.IsLater := by
  obtain ⟨x, hl, _⟩ := ((rostered_new r).mem_iff post.1 post.2).mp hp
  exact not_isLater_new hl.1

theorem map_shift {α : Type} (n : Nat) {l : List (α × Handle)} (hl : ∀ x ∈ l, ¬x.2.IsLater) :
    l.map (Prod.map id (Handle.shift n)) = l := by
  refine (List.map_congr_left fun x hx => ?_).trans l.map_id
  exact Prod.ext rfl (Handle.shift_of_not_later (hl x hx))

/-- A graph that holds nothing alive but the primitive types is the new graph with other handles for
what is yet to come. -/
theorem renumbered_of_primitive (s : Seeded r g) (w : g.WellFormed) (t : g.Rostered)
    (hr : g.registry = r) (hf : g.frozen = false)
    (honly : ∀ h e, g.LiveAt h e → ¬h.IsLater) :
    Renumbered r (Handle.shift (g.elements.size - primitiveNames.length))
      (g.elements.size - primitiveNames.length) (new r) g where
  injective := Handle.shift_injective _
  fresh := fun _ hh => if_pos hh
  size := by
    have hsize := s.size_later
    have hnew : (new r).elements.size = primitiveNames.length := rfl
    rw [hnew]
    exact (Nat.add_sub_cancel' hsize).symm
  element := by
    intro h
    by_cases hh : h.IsLater
    · have hnone : (new r).element? h = none := by
        cases he : (new r).element? h with
        | none => rfl
        | some e => exact absurd hh (not_isLater_new he)
      rw [hnone, Handle.shift_of_later hh]
      apply Array.getElem?_eq_none
      simp only [Handle.IsLater] at hh
      simp only
      omega
    · rw [Handle.shift_of_not_later hh, s.element h hh]
      cases he : (new r).element? h with
      | none => rfl
      | some e => exact congrArg some (renumber_isPrimitive (isPrimitive_new he)).symm
  entries := by
    rw [map_shift _ fun _ => not_isLater_of_mem_entries, ← s.entries, List.filter_eq_self.mpr]
    intro x hx
    obtain ⟨e, hl, hp⟩ := (w.lookup_iff x.1 x.2).mp (Index.get?_eq_some_iff.mpr hx)
    have hnew := s.element x.2 (honly x.2 e hl)
    rw [hl.1] at hnew
    have hlook := (wellFormed_new r).lookup_path ⟨hnew.symm, hl.2⟩
    rw [← hp, decide_eq_true_eq, ← paths_new r]
    exact List.mem_map_of_mem (Index.get?_eq_some_iff.mp hlook)
  roster := by
    rw [map_shift _ fun _ => not_isLater_of_mem_roster, ← s.roster, List.filter_eq_self.mpr]
    intro post hp
    obtain ⟨e, hl, _⟩ := (t.mem_iff post.1 post.2).mp hp
    simpa using honly post.2 e hl
  registry := ⟨rfl, hr⟩
  frozen := hf
  descends := by
    intro o p c hp hm
    obtain ⟨n, rfl⟩ := isPrimitive_new hp
    exact absurd hm List.not_mem_nil

/-- A graph of which all has been deleted but the primitive types gives the answers of the new
graph, up to a renaming of handles. A writer that looked at handles could tell the two apart; those
of the presets go by the names of references. -/
theorem answers_of_cleared (hc : r.cleaners = []) (hw : r.WritesByName)
    (a : Reached Change.Gentle r g) (hf : g.frozen = false) {roots : List Handle}
    (hroots : ∀ h, h ∈ roots ↔ h.IsLater ∧ ∃ e, g.LiveAt h e ∧ e.package = none) :
    ∃ φ : Handle → Handle, Function.Injective φ ∧ (∀ h, ¬h.IsLater → φ h = h) ∧
      ∀ qs : List Request, (∀ q ∈ qs, q.Allowed) →
        Request.answers (qs.map (Request.renumber φ)) (g.deleteAll roots) =
          (Request.answers qs (new r)).map (Answer.renumber φ) := by
  have hkeeps : r.KeepsKinds := by
    intro clean hm
    rw [hc] at hm
    cases hm
  have w : g.WellFormed := (a.mono fun _ _ h => h.1).wellFormed
  obtain ⟨ht, hfrozen, hgone⟩ := thinned_deleteAll w hf roots
  have a' : Reached Change.Gentle r (g.deleteAll roots) :=
    a.deleteAll fun h hh _ => ⟨trivial, trivial, ((hroots h).mp hh).1⟩
  have w' : (g.deleteAll roots).WellFormed := (a'.mono fun _ _ h => h.1).wellFormed
  have t' : (g.deleteAll roots).Rostered := (a'.mono fun _ _ h => ⟨h.1, h.2.1⟩).rostered hkeeps
  have s' : Seeded r (g.deleteAll roots) := (a'.mono fun _ _ h => ⟨h.1, h.2.2⟩).seeded
  have hr := (a'.mono fun _ _ h => h.1).registry_eq
  have honly := not_isLater_of_liveAt s' w' fun h e' hh hl' ho => by
    obtain ⟨e, hl, hthin⟩ := ht.exists_liveAt hl'
    exact hgone h ((hroots h).mpr ⟨hh, e, hl, hthin.package.symm.trans ho⟩) e' hl'
  have m := renumbered_of_primitive s' w' t' hr hfrozen honly
  exact ⟨_, Handle.shift_injective _, fun h hh => Handle.shift_of_not_later hh,
    fun qs hq => m.answers hc hw qs hq⟩

def storeRegistry : Registry := (Preset.registry [.text, .serviceStore]).toOption.getD .empty

/-- A package with a class that was renamed when another class was already bound to it. -/
def staffGraph : Graph :=
  (Change.rename ⟨13⟩ "Human").run (Change.resolve.run
    ((Change.create ⟨"Clerk"⟩ (.class { superTypes := [.ofText "model::Person"] })).run
      ((Change.add (.new "Person" (.class {})) (some ⟨12⟩)).run
        ((Change.create ⟨"model"⟩ (.package [])).run (new storeRegistry)))))

theorem reached_staffGraph : Reached Change.Gentle storeRegistry staffGraph := by
  have hlater : Handle.IsLater ⟨13⟩ := by decide
  exact ((((Reached.new.change ⟨rfl, trivial, trivial⟩).change
    ⟨⟨rfl, rfl, by decide⟩, trivial, trivial⟩).change ⟨rfl, trivial, trivial⟩).change
      ⟨trivial, trivial, trivial⟩).change ⟨⟨⟨_, rfl, rfl⟩, by decide⟩, trivial, hlater⟩

/-- The elements at the root that are alive, apart from the primitive types. -/
def laterRoots (g : Graph) : List Handle :=
  ((List.range g.elements.size).map Handle.mk).filter fun h =>
    decide h.IsLater && (g.element? h).any fun e => !e.deleted && e.package.isNone

theorem mem_laterRoots {roots : List Handle} (hroots : g.laterRoots = roots) (h : Handle) :
    h ∈ roots ↔ h.IsLater ∧ ∃ e, g.LiveAt h e ∧ e.package = none := by
  subst hroots
  simp only [laterRoots, List.mem_filter, List.mem_map, List.mem_range, Bool.and_eq_true,
    decide_eq_true_eq, Option.any_eq_true, Bool.not_eq_true', Option.isNone_iff_eq_none]
  constructor
  · rintro ⟨-, hh, e, he, hd, ho⟩
    exact ⟨hh, e, ⟨he, hd⟩, ho⟩
  · rintro ⟨hh, e, hl, ho⟩
    exact ⟨⟨h.slot, slot_lt_of_element? hl.1, rfl⟩, hh, e, hl.1, hl.2, ho⟩

theorem answers_of_cleared_staff :
    storeRegistry.cleaners = [] ∧ staffGraph.frozen = false ∧
    ((staffGraph.deleteAll [⟨12⟩, ⟨14⟩]).element? ⟨13⟩).map (·.deleted) = some true ∧
    ∃ φ : Handle → Handle, Function.Injective φ ∧ (∀ h, ¬h.IsLater → φ h = h) ∧
      ∀ qs : List Request, (∀ q ∈ qs, q.Allowed) →
        Request.answers (qs.map (Request.renumber φ)) (staffGraph.deleteAll [⟨12⟩, ⟨14⟩]) =
          (Request.answers qs (new storeRegistry)).map (Answer.renumber φ) := by
  have hpresets : Preset.registry [.text, .serviceStore] = .ok storeRegistry := rfl
  exact ⟨rfl, rfl, rfl, answers_of_cleared rfl (Preset.writesByName hpresets) reached_staffGraph rfl
    (mem_laterRoots (by decide +kernel))⟩

/-- What a package owned before its list was replaced outlives the package, and what a package came in
with keeps a path in the index after all is deleted: look-ups find them. -/
theorem cleared_answers_differ :
    (∃ g, Reached (fun g c => c.Plain g ∧ c.SparesPrimitives) storeRegistry g ∧ g.frozen = false ∧
      (∀ h, h ∈ [⟨12⟩] ↔ h.IsLater ∧ ∃ e, g.LiveAt h e ∧ e.package = none) ∧
      Request.answers [.lookup ⟨"a::B"⟩] (g.deleteAll [⟨12⟩]) = [.handle ⟨13⟩]) ∧
    (∃ g, Reached (fun g c => c.Plain g ∧ c.SparesPrimitives) storeRegistry g ∧ g.frozen = false ∧
      (∀ h, h ∈ [⟨12⟩, ⟨14⟩] ↔ h.IsLater ∧ ∃ e, g.LiveAt h e ∧ e.package = none) ∧
      Request.answers [.lookup ⟨"y::B"⟩] (g.deleteAll [⟨12⟩, ⟨14⟩]) = [.handle ⟨13⟩]) ∧
    Request.answers [.lookup ⟨"a::B"⟩, .lookup ⟨"y::B"⟩] (new storeRegistry) =
      [.missing, .missing] := by
  have hlater (n : Nat) (hn : 12 ≤ n) : Handle.IsLater ⟨n⟩ := hn
  have hreached : Reached (fun g c => c.Plain g ∧ c.SparesPrimitives) storeRegistry
      (owningGraph storeRegistry (.class {})) := Reached.new.change ⟨trivial, trivial⟩
  rw [owningGraph_eq] at hreached
  refine ⟨?_, ?_, rfl⟩
  · exact ⟨_, hreached.change (c := .put [] ⟨12⟩) ⟨Change.plain_put rfl, hlater 12 (by decide)⟩, rfl,
      mem_laterRoots (by decide +kernel), rfl⟩
  · have hmoved := ((hreached.change (c := .create ⟨"x"⟩ (.package [⟨13⟩])) ⟨trivial, trivial⟩).change
      (c := .delete ⟨13⟩) ⟨trivial, hlater 13 (by decide)⟩).change (c := .rename ⟨14⟩ "y")
        ⟨⟨⟨_, rfl, rfl⟩, by decide⟩, hlater 14 (by decide)⟩
    exact ⟨_, hmoved, rfl, mem_laterRoots (by decide +kernel), rfl⟩

end Graph
end ModelGraph
