import ModelGraph.Proofs.Changes
import ModelGraph.Proofs.Registration
import ModelGraph.Proofs.Steps
import Mathlib.Tactic.SplitIfs

namespace ModelGraph

namespace Graph

open Steps

variable {g : Graph}

def addSteps (e : Element) (owner : Option Handle) : Steps Graph Handle := do
  let g ← get
  match g.ownerPath e.name owner with
  | .error fault => throw fault
  | .ok package =>
    let path := Path.join package e.name
    if g.frozen then throw (.immutableElementMutation path)
    if !Path.isSimpleName e.name then throw (.invalidPath path (notSimple e.name))
    if g.index.contains path then throw (.duplicatePath path)
    let (pushed, h) := g.push e owner path
    set pushed
    return h

/-- Deletes an element after all that it owns, down to `fuel` levels. Whether the graph is frozen is
asked anew for every element. -/
def deleteSteps : (fuel : Nat) → Handle → Steps Graph Unit
  | 0, _ => pure ()
  | fuel + 1, h => do
    let g ← get
    match g.element? h with
    | none => pure ()
    | some e =>
      if e.deleted then pure ()
      else if g.frozen then throw (.immutableElementMutation e.path)
      else
        forM e.body.children (deleteSteps fuel)
        modify (·.retire h e)

def renameSteps (h : Handle) (name : String) : Steps Graph Unit := do
  let g ← get
  match g.element? h with
  | none => pure ()
  | some e =>
    let path := Path.join e.path.package? name
    if g.frozen then throw (.immutableElementMutation e.path)
    if !Path.isSimpleName name then throw (.invalidPath path (notSimple name))
    if path = e.path then return
    if g.index.contains path then throw (.duplicatePath path)
    modify (·.reindex e.path path h)
    modify (·.update (·.rename name path) h)
    let renamed ← get
    let (relocated, moves) := relocateTree renamed.fuel h path (renamed, [(h, path)])
    set relocated
    modify (·.repoint moves)

theorem outcome_addSteps (e : Element) (owner : Option Handle) :
    outcome (addSteps e owner) g = ((g.addStep e owner).2, (g.addStep e owner).1) := by
  simp only [addSteps, outcome_get_bind, addStep, addElement]
  cases g.ownerPath e.name owner with
  | error fault => rfl
  | ok package =>
    simp only [ok_bind]
    split_ifs <;> rfl

theorem frozen_retire (h : Handle) (e : Element) : (g.retire h e).frozen = g.frozen := by
  unfold retire leave
  split <;> rfl

theorem outcome_deleteSteps (fuel : Nat) (h : Handle) (hf : g.frozen = false) :
    outcome (deleteSteps fuel h) g = (.ok (), g.retireTree fuel h) ∧
      (g.retireTree fuel h).frozen = false := by
  induction fuel generalizing g h with
  | zero => exact ⟨rfl, hf⟩
  | succ fuel ih =>
    rw [deleteSteps, outcome_get_bind, retireTree]
    cases he : g.element? h with
    | none => exact ⟨rfl, hf⟩
    | some e =>
      by_cases hd : e.deleted = true
      · simp only [if_pos hd]
        exact ⟨rfl, hf⟩
      · obtain ⟨ho, hf'⟩ := outcome_forM (fun g child hg => ih child hg) e.body.children hf
        simp only [if_neg hd, hf, Bool.false_eq_true, if_false]
        rw [outcome_bind, ho]
        exact ⟨rfl, (frozen_retire h e).trans hf'⟩

theorem outcome_delete (h : Handle) :
    outcome (deleteSteps g.fuel h) g = settled g (g.delete h) := by
  cases hf : g.frozen with
  | false =>
    rw [(outcome_deleteSteps g.fuel h hf).1, delete, fuel, retireTree]
    cases g.element? h with
    | none => rfl
    | some e =>
      simp only [hf, Bool.false_eq_true, if_false]
      split <;> rfl
  | true =>
    rw [fuel, deleteSteps, outcome_get_bind, delete]
    cases g.element? h with
    | none => rfl
    | some e =>
      simp only [hf]
      split_ifs <;> rfl

theorem outcome_renameSteps (h : Handle) (name : String) :
    outcome (renameSteps h name) g = settled g (g.rename h name) := by
  simp only [renameSteps, outcome_get_bind, rename]
  cases g.element? h with
  | none => rfl
  | some e =>
    simp only
    split_ifs <;> rfl

theorem addStep_made (e : Element) (owner : Option Handle) :
    (g.addStep e owner).1 = g ∨ g.frozen = false ∧ ∃ h, (g.addStep e owner).2 = .ok h := by
  unfold addStep
  cases h : g.addElement e owner with
  | error fault => exact .inl rfl
  | ok r => exact .inr ⟨(addElement_eq_ok h).2.1, r.2, rfl⟩

theorem ensurePackage_made (w : g.WellFormed) (p : Path) (hp : p.fault? = none) :
    (g.ensurePackage p).1 = g ∨
      g.frozen = false ∧ g.lookup p = none ∧ ∃ h, (g.ensurePackage p).2 = .ok h := by
  fun_induction ensurePackage g p with
  | case1 => exact .inl rfl
  | case2 => exact .inl rfl
  | case3 p hl hq =>
    obtain hsame | ⟨hf, hok⟩ := addStep_made (g := g) (.new p.name (.package [])) none
    · exact .inl hsame
    · exact .inr ⟨hf, hl, hok⟩
  | case4 p hl q hq g' owner hg ih =>
    obtain hsame | ⟨hf, -, -⟩ := ih ((Path.fault?_eq_none_iff_join.mp hp).2 q hq)
    · obtain rfl : g' = g := by rw [← hsame, hg]
      obtain hsame | ⟨hf, hok⟩ := addStep_made (g := g') (.new p.name (.package [])) (some owner)
      · exact .inl hsame
      · exact .inr ⟨hf, hl, hok⟩
    · have hok := addStep_ensured_ok w hf hp hq hl (congrArg Prod.snd hg) (.package [])
      rw [hg] at hok
      exact .inr ⟨hf, hl, hok⟩
  | case5 p hl q hq g' fault hg ih =>
    obtain hsame | ⟨-, -, h, hh⟩ := ih ((Path.fault?_eq_none_iff_join.mp hp).2 q hq)
    · exact .inl (hg ▸ hsame)
    · rw [hg] at hh
      cases hh

theorem lookup_eq_none_of_package (w : g.WellFormed) {p q : Path} (hq : p.package? = some q)
    (hl : g.lookup q = none) : g.lookup p = none := by
  cases hp : g.lookup p with
  | none => rfl
  | some h =>
    obtain ⟨e, he, rfl⟩ := (w.lookup_iff p h).mp hp
    obtain ⟨o, x, hx, rfl, -⟩ := w.live_ancestor he (Path.mem_ancestors hq (.inl rfl))
    rw [w.lookup_path hx] at hl
    cases hl

theorem create_made (w : g.WellFormed) (p : Path) (b : Body) :
    (g.create p b).1 = g ∨ ∃ h, (g.create p b).2 = .ok h := by
  unfold create
  cases hp : p.fault? with
  | some fault => exact .inl rfl
  | none =>
    cases hq : p.package? with
    | none => exact (addStep_made _ none).imp_right And.right
    | some q =>
      have hmade := ensurePackage_made w q ((Path.fault?_eq_none_iff_join.mp hp).2 q hq)
      simp only
      split
      · next g' owner hg =>
        obtain hsame | ⟨hf, hl, -⟩ := hmade
        · obtain rfl : g' = g := by rw [← hsame, hg]
          exact (addStep_made _ _).imp_right And.right
        · have hfree := lookup_eq_none_of_package w hq hl
          have hok := addStep_ensured_ok w hf hp hq hfree (congrArg Prod.snd hg) b
          rw [hg] at hok
          exact .inr hok
      · next g' fault hg =>
        obtain hsame | ⟨-, -, h, hh⟩ := hmade
        · exact .inl (hg ▸ hsame)
        · rw [hg] at hh
          cases hh

end Graph

namespace Change

open Steps

variable {g : Graph}

/-- How a change ends, and the graph it leaves. Changes that are not listed can't fail. -/
def attempt : Change → Graph → Except GraphError Unit × Graph
  | .create path body, g => ((g.create path body).2.map fun _ => (), (g.create path body).1)
  | .add e owner, g =>
    let (result, g) := outcome (Graph.addSteps e owner) g
    (result.map fun _ => (), g)
  | .ensure path, g => ((g.ensurePackage path).2.map fun _ => (), (g.ensurePackage path).1)
  | .delete h, g => outcome (Graph.deleteSteps g.fuel h) g
  | .rename h name, g => outcome (Graph.renameSteps h name) g
  | c, g => (.ok (), c.run g)

theorem snd_settled (g : Graph) (result : Except GraphError Graph) :
    (settled g result).2 = result.toOption.getD g := by
  cases result <;> rfl

theorem attempt_snd (c : Change) (g : Graph) : (c.attempt g).2 = c.run g := by
  cases c with
  | add e owner => simp only [attempt, run, Graph.outcome_addSteps]
  | delete h => rw [attempt, Graph.outcome_delete, snd_settled, run]
  | rename h name => rw [attempt, Graph.outcome_renameSteps, snd_settled, run]
  | create | ensure | resolve | sweep | freeze | edit => rfl

theorem settled_error {result : Except GraphError Graph} {fault : GraphError}
    (h : (settled g result).1 = .error fault) : (settled g result).2 = g := by
  cases result with
  | ok g' => cases h
  | error fault => rfl

theorem not_error_of_ok {α : Type} {result : Except GraphError α} {fault : GraphError}
    (h : (result.map fun _ => ()) = .error fault) : ¬∃ a, result = .ok a := by
  rintro ⟨a, rfl⟩
  cases h

/-- Every change of a graph is made as a whole or not at all: whatever has been done to a graph,
and whether it is frozen or not, a change that fails leaves the graph as it was. -/
theorem attempt_error {r : Registry} (a : Graph.Reached (fun g c => c.Allowed g) r g) {c : Change}
    (hp : ∀ p, c = .ensure p → p.fault? = none) {fault : GraphError}
    (hf : (c.attempt g).1 = .error fault) : (c.attempt g).2 = g ∧ c.run g = g := by
  rw [← attempt_snd, and_self_iff]
  have w := a.wellFormed
  cases c with
  | create path body =>
    exact (Graph.create_made w path body).resolve_right (not_error_of_ok hf)
  | add e owner =>
    simp only [attempt, Graph.outcome_addSteps] at hf ⊢
    exact (Graph.addStep_made e owner).resolve_right fun h => not_error_of_ok hf h.2
  | ensure path =>
    exact (Graph.ensurePackage_made w path (hp path rfl)).resolve_right
      fun h => not_error_of_ok hf h.2.2
  | delete h =>
    rw [attempt, Graph.outcome_delete] at hf ⊢
    exact settled_error hf
  | rename h name =>
    rw [attempt, Graph.outcome_renameSteps] at hf ⊢
    exact settled_error hf
  | resolve | sweep | freeze | edit => cases hf

theorem attempt_error_below_class :
    let g := (create ⟨"Person"⟩ (.class {})).run (.new Preset.full)
    let c := create ⟨"Person::address::City"⟩ (.class {})
    (c.attempt g).2 = g ∧ c.run g = g := by
  intro g c
  let fault : GraphError :=
    .invalidPath ⟨"Person"⟩ "an element other than a package owns this path"
  have hperson : (Path.mk "Person::address").package? = some ⟨"Person"⟩ := by decide +kernel
  have haddress : (Path.mk "Person::address::City").package? = some ⟨"Person::address"⟩ := by
    decide +kernel
  have hmissing : g.ensurePackage ⟨"Person::address"⟩ = (g, .error fault) := by
    rw [Graph.ensurePackage_below rfl hperson, Graph.ensurePackage_of_other (o := ⟨12⟩) rfl rfl]
  have hcreate : g.create ⟨"Person::address::City"⟩ (.class {}) = (g, .error fault) :=
    Graph.create_of_not_ensured (by decide +kernel) haddress hmissing _
  have hreached : Graph.Reached (fun g c => c.Allowed g) Preset.full g := .change .new rfl
  have hfails : (c.attempt g).1 = .error fault := by
    rw [attempt, hcreate]
    rfl
  exact attempt_error hreached (fun p hp => Change.noConfusion hp) hfails

theorem attempt_create_of_ensured {g₁ : Graph} {p q : Path} {b : Body} {o : Handle}
    {fault : GraphError} (hp : p.fault? = none) (hq : p.package? = some q)
    (hens : g.ensurePackage q = (g₁, .ok o))
    (htaken : g₁.addStep (.new p.name b) (some o) = (g₁, .error fault)) :
    (create p b).attempt g = (.error fault, g₁) := by
  rw [attempt, Graph.create_of_ensured hp hq hens, htaken]
  rfl

/-- Lists of packages that are not the graph's own, and added names that are no segments, leave paths
in use of which the packages are gone. To create something at such a path makes the package and fails. -/
theorem attempt_error_halfway :
    (∃ g g', Graph.Reached (fun g c => (∃ e o, c = .add e o) ∨ (∃ h, c = .delete h) ∨
        ∃ h n, c = .rename h n ∧ (∃ e, g.LiveAt h e) ∧ Path.IsSegment n) Preset.full g ∧
      (create ⟨"w::c::k"⟩ (.class {})).attempt g = (.error (.duplicatePath ⟨"w::c::k"⟩), g') ∧
      g.lookup ⟨"w::c"⟩ = none ∧ g'.lookup ⟨"w::c"⟩ = some ⟨16⟩) ∧
    (∃ g g', Graph.Reached (fun g c => c.Plain g) Preset.full g ∧
      (create ⟨"a::B"⟩ (.class {})).attempt g = (.error (.duplicatePath ⟨"a::B"⟩), g') ∧
      g.lookup ⟨"a"⟩ = none ∧ g'.lookup ⟨"a"⟩ = some ⟨14⟩) ∧
    ∃ g g', Graph.Reached (fun g c => c.Plain g) Preset.full g ∧
      (create ⟨"y::B"⟩ (.class {})).attempt g = (.error (.duplicatePath ⟨"y::B"⟩), g') ∧
      g.lookup ⟨"y"⟩ = none ∧ g'.lookup ⟨"y"⟩ = some ⟨15⟩ := by
  have hreached := Graph.reached_owningGraph (r := Preset.full) (.class {})
  rw [Graph.owningGraph_eq] at hreached
  refine ⟨?_, ?_, ?_⟩
  · have hnew : Graph.Reached (fun g c => (∃ e o, c = .add e o) ∨ (∃ h, c = .delete h) ∨
        ∃ h n, c = .rename h n ∧ (∃ e, g.LiveAt h e) ∧ Path.IsSegment n) Preset.full
          (Graph.new Preset.full) := .new
    have hadded := (((hnew.change
      (c := .add (.new "x" (.package [])) none) (.inl ⟨_, _, rfl⟩)).change
      (c := .add (.new "c" (.package [])) (some ⟨12⟩)) (.inl ⟨_, _, rfl⟩)).change
      (c := .add (.new "k" (.class {})) (some ⟨13⟩)) (.inl ⟨_, _, rfl⟩)).change
      (c := .add (.new ":b" (.package [])) (some ⟨12⟩)) (.inl ⟨_, _, rfl⟩)
    have hens {g g' : Graph} {o o' : Handle} (hl : g.lookup ⟨"w::c"⟩ = none)
        (hw : g.ensurePackage ⟨"w"⟩ = (g, .ok o))
        (hadd : g.addStep (.new "c" (.package [])) (some o) = (g', .ok o')) :
        g.ensurePackage ⟨"w::c"⟩ = (g', .ok o') := by
      rw [Graph.ensurePackage_below hl (by decide : (Path.mk "w::c").package? = some ⟨"w"⟩), hw]
      exact hadd
    have hgone := ((hadded.change (c := .rename ⟨15⟩ "c")
      (.inr (.inr ⟨_, _, rfl, ⟨_, rfl, rfl⟩, by decide⟩))).change (c := .rename ⟨12⟩ "w")
      (.inr (.inr ⟨_, _, rfl, ⟨_, rfl, rfl⟩, by decide⟩))).change (c := .delete ⟨15⟩)
      (.inr (.inl ⟨_, rfl⟩))
    exact ⟨_, _, hgone, attempt_create_of_ensured (q := ⟨"w::c"⟩) (o := ⟨16⟩) (by decide)
      (by decide) (hens rfl (Graph.ensurePackage_found rfl rfl) rfl) rfl, rfl, rfl⟩
  · have hgone := (hreached.change (c := put [] ⟨12⟩) (plain_put rfl)).change
      (c := .delete ⟨12⟩) trivial
    exact ⟨_, _, hgone, attempt_create_of_ensured (q := ⟨"a"⟩) (o := ⟨14⟩) (by decide)
      (by decide) ((Graph.ensurePackage_root rfl (by decide)).trans rfl) rfl, rfl, rfl⟩
  · have hgone := ((((hreached.change (c := .create ⟨"x"⟩ (.package [⟨13⟩])) trivial).change
      (c := .delete ⟨13⟩) trivial).change (c := .rename ⟨14⟩ "y")
        ⟨⟨_, rfl, rfl⟩, by decide⟩).change (c := .delete ⟨12⟩) trivial).change
          (c := .delete ⟨14⟩) trivial
    exact ⟨_, _, hgone, attempt_create_of_ensured (q := ⟨"y"⟩) (o := ⟨15⟩) (by decide)
      (by decide) ((Graph.ensurePackage_root rfl (by decide)).trans rfl) rfl, rfl, rfl⟩

end Change
end ModelGraph
