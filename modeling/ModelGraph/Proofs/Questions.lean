import ModelGraph.Proofs.DigestWords
import ModelGraph.Proofs.Requests
import ModelGraph.Proofs.UnhashedGraphs

namespace ModelGraph

namespace Use

def answer : Use → Graph → Answer
  | .change (.create path body), g => .of .handle (g.create path body).2
  | .change (.add e owner), g => .of .handle (g.addStep e owner).2
  | .change (.ensure path), g => .of .handle (g.ensurePackage path).2
  | .change (.delete h), g => (Request.settle g (g.delete h)).2
  | .change (.rename h name), g => (Request.settle g (g.rename h name)).2
  | .change .resolve, g => .faults g.resolveAll.2
  | .change .sweep, g => .number g.sweep.2
  | .change .freeze, _ => .done
  | .change (.edit _ _), _ => .done
  | .wire h, g => .faults (g.wire h).2
  | .dispose, _ => .done
  | .hash h, g => .of .digest (g.hashElement h).2
  | .hashPath p, g => .of .digest (g.hash p).2
  | .hashIndex, g => .of .digests g.hashIndex.2

def IsQuestion : Use → Prop
  | .hash _ | .hashPath _ | .hashIndex => True
  | _ => False

theorem IsQuestion.addsUnhashed {u : Use} (hq : u.IsQuestion) : u.AddsUnhashed := by
  intro e owner h
  rw [h] at hq
  exact hq.elim

end Use

namespace Graph

variable {g g' : Graph} {u : Use}

theorem unhashed_unhashed (g : Graph) : g.unhashed.unhashed = g.unhashed := by
  simp only [unhashed, Array.map_map]
  rfl

theorem run_unhashed {c : Change} (hc : (Use.change c).AddsUnhashed) (g : Graph) :
    c.run g.unhashed = (c.run g).unhashed ∧
      (Use.change c).answer g.unhashed = (Use.change c).answer g := by
  have hsettle {o o' : Except GraphError Graph} (h : o' = o.map unhashed) :
      o'.toOption.getD g.unhashed = (o.toOption.getD g).unhashed ∧
        (Request.settle g.unhashed o').2 = (Request.settle g o).2 := by
    subst h
    cases o <;> exact ⟨rfl, rfl⟩
  have hstep {α : Type} {s s' : Graph × α} (f : α → Answer) (h : s' = Prod.map unhashed id s) :
      s'.1 = s.1.unhashed ∧ f s'.2 = f s.2 := by
    subst h
    exact ⟨rfl, rfl⟩
  cases c with
  | create path body => exact hstep (.of .handle) (create_unhashed path body g)
  | add e owner =>
    have he : e.unhashed = e := by
      rw [Element.unhashed, ← hc e owner rfl]
    have hadded := addStep_unhashed e owner g
    rw [he] at hadded
    exact hstep (.of .handle) hadded
  | ensure path => exact hstep (.of .handle) (ensurePackage_unhashed path g)
  | delete h => exact hsettle (delete_unhashed h g)
  | rename h name => exact hsettle (rename_unhashed h name g)
  | resolve => exact hstep .faults (resolveAll_unhashed g)
  | sweep => exact hstep .number (sweep_unhashed g)
  | freeze => exact ⟨freeze_unhashed g, rfl⟩
  | edit f h => exact ⟨edit_unhashed f h g, rfl⟩

theorem unhashed_question (hq : u.IsQuestion) (g : Graph) : (u.run g).unhashed = g.unhashed := by
  cases u with
  | hash h => exact unhashed_hashElement h g
  | hashPath p =>
    rw [Use.run, Graph.hash]
    split
    · rfl
    · exact unhashed_hashElement _ g
  | hashIndex => exact unhashed_hashIndex g
  | _ => exact hq.elim

/-- What comes of a use does not depend on the digests that are kept, if these are right. -/
theorem MemosFresh.use_unhashed (f : g.MemosFresh) (hu : u.AddsUnhashed) :
    (u.run g.unhashed).unhashed = (u.run g).unhashed ∧ u.answer g.unhashed = u.answer g := by
  have hquestion (hq : u.IsQuestion) : (u.run g.unhashed).unhashed = (u.run g).unhashed := by
    rw [unhashed_question hq, unhashed_question hq, unhashed_unhashed]
  cases u with
  | change c =>
    obtain ⟨hrun, hanswer⟩ := run_unhashed hu g
    refine ⟨?_, hanswer⟩
    rw [Use.run, Use.run, hrun, unhashed_unhashed]
  | wire h =>
    rw [Use.run, Use.run, Use.answer, Use.answer, wire_unhashed]
    exact ⟨unhashed_unhashed _, rfl⟩
  | dispose =>
    rw [Use.run, Use.run, dispose_unhashed, unhashed_unhashed]
    exact ⟨rfl, rfl⟩
  | hash h => exact ⟨hquestion trivial, congrArg (Answer.of .digest) (f.hashElement_unhashed h)⟩
  | hashPath p =>
    refine ⟨hquestion trivial, congrArg (Answer.of .digest) ?_⟩
    have hl : g.unhashed.lookup = g.lookup := rfl
    rw [Graph.hash, Graph.hash, hl]
    cases g.lookup p with
    | none => rfl
    | some h => exact f.hashElement_unhashed h
  | hashIndex => exact ⟨hquestion trivial, congrArg (Answer.of .digests) f.hashIndex_unhashed⟩

end Graph

namespace Element

variable {e e' : Element} {d : Digest}

theorem kept_of_hash (h : e.hash = .ok (d, e')) : e'.hashFault? = none ∧ e'.memo? = some d := by
  cases hf : e.hashFault? with
  | some fault =>
    rw [hash_of_fault hf] at h
    cases h
  | none =>
    refine ⟨(hashFault?_of_unhashed (unhashed_of_hash h)).trans hf, ?_⟩
    rw [hash, hf] at h
    cases hm : e.memo? with
    | some x =>
      rw [hm] at h
      obtain ⟨rfl, rfl⟩ := Prod.mk.inj (Except.ok.inj h)
      exact hm
    | none =>
      rw [hm] at h
      obtain ⟨rfl, rfl⟩ := Prod.mk.inj (Except.ok.inj h)
      exact if_pos rfl

theorem hashFault?_attach (h : e.hashFault? = none) (owner : Option Handle) (path : Path) :
    (e.attach owner path).hashFault? = none := by
  simp only [hashFault?, isViolated, attach] at h ⊢
  grind

theorem hash_attach (h : e.hash = .ok (d, e')) (owner : Option Handle) (path : Path) :
    (e'.attach owner path).hash = .ok (d, e'.attach owner path) := by
  obtain ⟨hfault, hmemo⟩ := kept_of_hash h
  have hm : (e'.attach owner path).memo? = some d := hmemo
  rw [hash, hashFault?_attach hfault]
  simp only [hm]

theorem MemoFresh.attach (f : e.MemoFresh) (hm : e.memo? = none) (owner : Option Handle)
    (path : Path) : (e.attach owner path).MemoFresh := by
  intro n d hn
  refine ⟨(f n d hn).1, fun hr => ?_⟩
  have hn : e.memo = some (n, d) := hn
  rw [memo?, hn] at hm
  cases (if_pos hr).symm.trans hm

theorem memo?_edit (f : e.MemoFresh) (edit : Body → Body) : (e.edit edit).memo? = none := by
  have hm : (e.edit edit).memo = e.memo := rfl
  have hr : (e.edit edit).revision = e.revision + 1 := rfl
  rw [memo?, hm, hr]
  split
  · next n d hn =>
    have hle := (f n d hn).1
    exact if_neg (by omega)
  · rfl

/-- What is left of an element that was asked for its digest. -/
def asked (e : Element) : Element :=
  match e.hash with
  | .ok (_, e') => e'
  | .error _ => e

theorem asked_of_hash (h : e.hash = .ok (d, e')) : e.asked = e' := by
  rw [asked, h]

theorem asked_of_fault {fault : GraphError} (h : e.hashFault? = some fault) : e.asked = e := by
  rw [asked, hash_of_fault h]

theorem memo?_asked (h : e.hashFault? = none) : e.asked.memo? ≠ none := by
  obtain ⟨e', he', -, -⟩ := hash_of_no_fault h
  rw [asked_of_hash he', (kept_of_hash he').2]
  exact nofun

/-- An element that is in no graph yet. -/
structure Loose (e : Element) : Prop where
  memoFresh : e.MemoFresh
  path : e.path = ⟨e.name⟩
  package : e.package = none

namespace Loose

theorem new (name : String) (body : Body) : (Element.new name body).Loose :=
  ⟨memoFresh_of_none rfl, rfl, rfl⟩

theorem edit (l : e.Loose) (f : Body → Body) : (e.edit f).Loose :=
  have t : e.Tracked (e.edit f) := .of_revision rfl rfl
  ⟨t.memoFresh l.memoFresh, l.path, l.package⟩

theorem freeze (l : e.Loose) : e.freeze.Loose :=
  have t : e.Tracked e.freeze := .of_digest rfl rfl rfl
  ⟨t.memoFresh l.memoFresh, l.path, l.package⟩

theorem asked (l : e.Loose) : e.asked.Loose ∧ e.asked.unhashed = e.unhashed := by
  cases hf : e.hashFault? with
  | some fault =>
    rw [asked_of_fault hf]
    exact ⟨l, rfl⟩
  | none =>
    obtain ⟨e', he', hu, -⟩ := hash_of_no_fault hf
    rw [asked_of_hash he']
    have hpath : e'.unhashed.path = e.unhashed.path := congrArg Element.path hu
    have hname : e'.unhashed.name = e.unhashed.name := congrArg Element.name hu
    have hpackage : e'.unhashed.package = e.unhashed.package := congrArg Element.package hu
    refine ⟨⟨(l.memoFresh.hash he').2, ?_, hpackage.trans l.package⟩, hu⟩
    exact hpath.trans (l.path.trans (congrArg Path.mk hname.symm))

/-- What joins no package keeps its path, and so a digest that it has kept stays right. -/
theorem attach (l : e.Loose) {owner : Option Handle} (h : owner = none ∨ e.memo? = none) (g : Graph) :
    (e.attach owner (Path.join (owner.map g.pathOf) e.name)).MemoFresh := by
  rcases h with rfl | hm
  · have hsame : e.attach none ⟨e.name⟩ = e := by rw [Element.attach, ← l.path, ← l.package]
    exact hsame.symm ▸ l.memoFresh
  · exact l.memoFresh.attach hm owner _

end Loose

/-- The first element is the second one, asked for its digest less often. -/
structure AskedLess (e' e : Element) : Prop where
  unhashed : e'.unhashed = e.unhashed
  loose' : e'.Loose
  loose : e.Loose
  memo : e.memo? = none → e'.memo? = none

namespace AskedLess

theorem refl (l : e.Loose) : AskedLess e e := ⟨rfl, l, l, id⟩

theorem edit (a : AskedLess e' e) (f : Body → Body) : AskedLess (e'.edit f) (e.edit f) :=
  ⟨congrArg (Element.edit f) a.unhashed, a.loose'.edit f, a.loose.edit f,
    fun _ => memo?_edit a.loose'.memoFresh f⟩

theorem freeze (a : AskedLess e' e) : AskedLess e'.freeze e.freeze :=
  ⟨congrArg Element.freeze a.unhashed, a.loose'.freeze, a.loose.freeze, a.memo⟩

theorem hash_eq (a : AskedLess e' e) : e'.hash.map Prod.fst = e.hash.map Prod.fst := by
  rw [← hash_unhashed a.loose'.memoFresh, ← hash_unhashed a.loose.memoFresh, a.unhashed]

theorem asked_right (a : AskedLess e' e) : AskedLess e' e.asked where
  unhashed := a.unhashed.trans a.loose.asked.2.symm
  loose' := a.loose'
  loose := a.loose.asked.1
  memo := by
    intro hm
    cases hf : e.hashFault? with
    | some fault =>
      rw [asked_of_fault hf] at hm
      exact a.memo hm
    | none => exact absurd hm (memo?_asked hf)

theorem asked (a : AskedLess e' e) : AskedLess e'.asked e.asked where
  unhashed := a.loose'.asked.2.trans (a.unhashed.trans a.loose.asked.2.symm)
  loose' := a.loose'.asked.1
  loose := a.loose.asked.1
  memo := by
    intro hm
    cases hf : e.hashFault? with
    | some fault =>
      rw [asked_of_fault hf] at hm
      rw [asked_of_fault ((hashFault?_of_unhashed a.unhashed).trans hf)]
      exact a.memo hm
    | none => exact absurd hm (memo?_asked hf)

end AskedLess

end Element

namespace Graph

theorem MemosFresh.addStep {g : Graph} (f : g.MemosFresh) {e : Element} {owner : Option Handle}
    (he : (e.attach owner (Path.join (owner.map g.pathOf) e.name)).MemoFresh) :
    (g.addStep e owner).1.MemosFresh := by
  rw [Graph.addStep]
  cases ha : g.addElement e owner with
  | error fault => exact f
  | ok r =>
    obtain ⟨rfl, -, hlive, -⟩ := addElement_eq_ok ha
    intro h x hx
    rw [element?_push_grown hlive] at hx
    split at hx
    · cases hx
      exact he
    · obtain ⟨y, hy, rfl⟩ := Option.map_eq_some_iff.mp hx
      rw [grown]
      split
      · exact (y.tracked_mapChildren _).memoFresh (f h y hy)
      · exact f h y hy

/-- What joins a graph after it was asked for its digest goes on giving this digest, wherever it is
put. -/
theorem hashElement_of_asked {g g' : Graph} {e e' : Element} {d : Digest} {owner : Option Handle}
    {h : Handle} (hh : e.hash = .ok (d, e')) (ha : g.addElement e' owner = .ok (g', h)) :
    (g'.hashElement h).2 = .ok d := by
  obtain ⟨hpush, -, hlive, -⟩ := addElement_eq_ok ha
  have hg : g' = _ := congrArg Prod.fst hpush
  have hi : h = ⟨g.elements.size⟩ := (congrArg Prod.snd hpush).trans (snd_push _ _ _ _)
  rw [hg, hi, hashElement, element?_push_grown hlive, if_pos rfl]
  simp only [Element.hash_attach hh]

end Graph

/-- What is done with a graph and with elements that are outside of it, under numbers. -/
inductive Act where
  | make (x : Nat) (name : String) (body : Body)
  | edit (x : Nat) (f : Body → Body)
  | freeze (x : Nat)
  | ask (x : Nat)
  | join (x : Nat) (owner : Option Handle)
  | use (u : Use)

/-- A graph, and the elements outside of it. -/
structure Bench where
  graph : Graph
  loose : Nat → Option Element

namespace Bench

def new (r : Registry) : Bench := ⟨.new r, fun _ => none⟩

def put (x : Nat) (e : Option Element) (s : Bench) : Bench :=
  { s with loose := Function.update s.loose x e }

def change (x : Nat) (f : Element → Element) (s : Bench) : Bench := s.put x ((s.loose x).map f)

end Bench

namespace Act

def run : Act → Bench → Bench
  | .make x name body, s => s.put x (some (.new name body))
  | .edit x f, s => s.change x (·.edit f)
  | .freeze x, s => s.change x Element.freeze
  | .ask x, s => s.change x Element.asked
  | .join x owner, s =>
    match s.loose x with
    | some e => { s.put x none with graph := (s.graph.addStep e owner).1 }
    | none => s
  | .use u, s => { s with graph := u.run s.graph }

def answer : Act → Bench → Answer
  | .ask x, s => (s.loose x).elim .missing fun e => .of .digest (e.hash.map Prod.fst)
  | .join x owner, s => (s.loose x).elim .missing fun e => .of .handle (s.graph.addStep e owner).2
  | .use u, s => u.answer s.graph
  | _, _ => .done

/-- What acts tell one after the other. -/
def answers : List Act → Bench → List Answer
  | [], _ => []
  | t :: ts, s => t.answer s :: answers ts (t.run s)

def IsQuestion : Act → Prop
  | .ask _ => True
  | .use u => u.IsQuestion
  | _ => False

/-- What joins a package was edited since it was asked for its digest, if it was asked at all. -/
def Unhurried (s : Bench) : Act → Prop
  | .join x owner => ∀ e, s.loose x = some e → owner = none ∨ e.memo? = none
  | .use u => u.AddsUnhashed
  | _ => True

def AllUnhurried : List Act → Bench → Prop
  | [], _ => True
  | t :: ts, s => t.Unhurried s ∧ AllUnhurried ts (t.run s)

end Act

namespace Bench

variable {s s' : Bench} {t : Act}

/-- What becomes of a graph and the elements outside of it when digests are asked for less often. -/
structure Alike (s' s : Bench) : Prop where
  unhashed : s'.graph.unhashed = s.graph.unhashed
  fresh' : s'.graph.MemosFresh
  fresh : s.graph.MemosFresh
  loose : ∀ x, Option.Rel Element.AskedLess (s'.loose x) (s.loose x)

theorem alike_new (r : Registry) : Alike (new r) (new r) :=
  ⟨rfl, Graph.memosFresh_new r, Graph.memosFresh_new r, fun _ => .none⟩

namespace Alike

theorem put (a : Alike s' s) (x : Nat) {e' e : Option Element}
    (h : Option.Rel Element.AskedLess e' e) : Alike (s'.put x e') (s.put x e) where
  unhashed := a.unhashed
  fresh' := a.fresh'
  fresh := a.fresh
  loose := by
    intro y
    by_cases hy : y = x
    · subst hy
      simpa only [Bench.put, Function.update_self] using h
    · simpa only [Bench.put, Function.update_of_ne hy] using a.loose y

theorem change (a : Alike s' s) (x : Nat) {f' f : Element → Element}
    (hf : ∀ {e' e}, Element.AskedLess e' e → Element.AskedLess (f' e') (f e)) :
    Alike (s'.change x f') (s.change x f) := by
  refine a.put x ?_
  have hx := a.loose x
  generalize s.loose x = o at hx ⊢
  generalize s'.loose x = o' at hx ⊢
  cases hx with
  | some h => exact .some (hf h)
  | none => exact .none

theorem change_right (a : Alike s' s) (x : Nat) {f : Element → Element}
    (hf : ∀ {e' e}, Element.AskedLess e' e → Element.AskedLess e' (f e)) :
    Alike s' (s.change x f) := by
  have hid : s'.change x id = s' := by
    rw [Bench.change, Option.map_id_fun, id, Bench.put, Function.update_eq_self]
  have hchanged : Alike (s'.change x id) (s.change x f) := a.change x hf
  rwa [hid] at hchanged

theorem withGraph (a : Alike s' s) {g' g : Graph} (hu : g'.unhashed = g.unhashed)
    (f' : g'.MemosFresh) (f : g.MemosFresh) :
    Alike { s' with graph := g' } { s with graph := g } :=
  ⟨hu, f', f, a.loose⟩

theorem join (a : Alike s' s) {x : Nat} {owner : Option Handle} (hs : (Act.join x owner).Unhurried s) :
    Alike ((Act.join x owner).run s') ((Act.join x owner).run s) ∧
      (Act.join x owner).answer s' = (Act.join x owner).answer s := by
  have hx := a.loose x
  rw [Act.run, Act.run, Act.answer, Act.answer]
  generalize hloose : s.loose x = o at hx ⊢
  generalize s'.loose x = o' at hx ⊢
  cases hx with
  | none => exact ⟨a, rfl⟩
  | @some e' e he =>
    have hstep : Prod.map Graph.unhashed id (s'.graph.addStep e' owner) =
        Prod.map Graph.unhashed id (s.graph.addStep e owner) := by
      rw [← Graph.addStep_unhashed, ← Graph.addStep_unhashed, a.unhashed, he.unhashed]
    have hm := hs e hloose
    obtain ⟨hrun, hanswer⟩ := Prod.mk.inj hstep
    refine ⟨(a.put x .none).withGraph hrun ?_ ?_, congrArg (Answer.of .handle) hanswer⟩
    · exact a.fresh'.addStep (he.loose'.attach (hm.imp_right he.memo) _)
    · exact a.fresh.addStep (he.loose.attach hm _)

theorem use (a : Alike s' s) {u : Use} (hu : u.AddsUnhashed) :
    Alike ((Act.use u).run s') ((Act.use u).run s) ∧
      (Act.use u).answer s' = (Act.use u).answer s := by
  obtain ⟨hrun, hanswer⟩ := a.fresh.use_unhashed hu
  obtain ⟨hrun', hanswer'⟩ := a.fresh'.use_unhashed hu
  rw [a.unhashed] at hrun' hanswer'
  exact ⟨a.withGraph (hrun'.symm.trans hrun) (a.fresh'.run hu) (a.fresh.run hu),
    hanswer'.symm.trans hanswer⟩

theorem run (a : Alike s' s) (hs : t.Unhurried s) :
    Alike (t.run s') (t.run s) ∧ t.answer s' = t.answer s := by
  cases t with
  | make x name body => exact ⟨a.put x (.some (.refl (.new name body))), rfl⟩
  | edit x f => exact ⟨a.change x fun h => h.edit f, rfl⟩
  | freeze x => exact ⟨a.change x fun h => h.freeze, rfl⟩
  | ask x =>
    refine ⟨a.change x fun h => h.asked, ?_⟩
    have hx := a.loose x
    rw [Act.answer, Act.answer]
    generalize s.loose x = o at hx ⊢
    generalize s'.loose x = o' at hx ⊢
    cases hx with
    | some h => exact congrArg (Answer.of .digest) h.hash_eq
    | none => rfl
  | join x owner => exact a.join hs
  | use u => exact a.use hs

/-- A question may be asked on the side of the bench where more is asked. -/
theorem question (a : Alike s' s) (hq : t.IsQuestion) : Alike s' (t.run s) := by
  cases t with
  | ask x => exact a.change_right x fun h => h.asked_right
  | use u =>
    have hu : u.IsQuestion := hq
    exact a.withGraph (a.unhashed.trans (Graph.unhashed_question hu _).symm) a.fresh'
      (a.fresh.run hu.addsUnhashed)
  | _ => exact hq.elim

theorem answers (a : Alike s' s) {ts : List (Act × Bool)}
    (hq : ∀ m ∈ ts, m.2 = true → m.1.IsQuestion) (hs : Act.AllUnhurried (ts.map Prod.fst) s) :
    Act.answers ((ts.filter (!·.2)).map Prod.fst) s' =
      (((Act.answers (ts.map Prod.fst) s).zip ts).filter (!·.2.2)).map Prod.fst := by
  induction ts generalizing s s' with
  | nil => rfl
  | cons m ts ih =>
    obtain ⟨t, isLeftOut⟩ := m
    obtain ⟨hfirst, hrest⟩ := hs
    have hq' := fun m hm => hq m (List.mem_cons_of_mem _ hm)
    cases isLeftOut with
    | true => exact ih (a.question (hq _ List.mem_cons_self rfl)) hq' hrest
    | false =>
      obtain ⟨ha, hanswer⟩ := a.run hfirst
      exact congrArg₂ List.cons hanswer (ih ha hq' hrest)

end Alike

end Bench

namespace Act

/-- Whatever is done with a graph from the beginning on, and with elements before they join it: the
questions for digests that are marked, wherever they stand, can be left out without a change of
another answer. But nothing may join a package after it was asked, unless it was edited since. -/
theorem answers_leaving_out {r : Registry} {ts : List (Act × Bool)}
    (hq : ∀ m ∈ ts, m.2 = true → m.1.IsQuestion)
    (hs : AllUnhurried (ts.map Prod.fst) (.new r)) :
    answers ((ts.filter (!·.2)).map Prod.fst) (.new r) =
      (((answers (ts.map Prod.fst) (.new r)).zip ts).filter (!·.2.2)).map Prod.fst :=
  (Bench.alike_new r).answers hq hs

/-- A class is made and put into a package, and its digest is asked for at last. -/
def classActs (between : List (Act × Bool)) : List (Act × Bool) :=
  [(.use (.change (.create ⟨"p"⟩ (.package []))), false), (.make 0 "A" (.class {}), false)] ++
    between ++ [(.join 0 (some ⟨12⟩), false), (.use (.hash ⟨13⟩), false)]

def editedActs : List (Act × Bool) :=
  classActs [(.ask 0, true), (.edit 0 fun _ => .class { superTypes := [.ofText "A"] }, false)]

theorem answers_leaving_out_edited :
    (∀ m ∈ editedActs, m.2 = true → m.1.IsQuestion) ∧
      AllUnhurried (editedActs.map Prod.fst) (.new Preset.full) ∧
      answers ((editedActs.filter (!·.2)).map Prod.fst) (.new Preset.full) =
        [.handle ⟨12⟩, .done, .done, .handle ⟨13⟩,
          .digest ((Body.class { superTypes := [.ofText "A"] }).digest ⟨"p::A"⟩)] := by
  have hq : ∀ m ∈ editedActs, m.2 = true → m.1.IsQuestion := by
    simp [editedActs, classActs, IsQuestion]
  have hs : AllUnhurried (editedActs.map Prod.fst) (.new Preset.full) := by
    have hcreated : (Use.change (.create ⟨"p"⟩ (.package []))).AddsUnhashed := by
      simp [Use.AddsUnhashed]
    have hlast : (Use.hash ⟨13⟩).AddsUnhashed := Use.IsQuestion.addsUnhashed trivial
    simp only [editedActs, classActs, List.cons_append, List.nil_append, List.map_cons,
      List.map_nil, AllUnhurried, Unhurried, true_and, and_true]
    refine ⟨hcreated, ?_, hlast⟩
    intro e he
    have hasked := (Element.Loose.new "A" (.class {})).asked.1
    exact .inr (Option.some.inj he ▸ Element.memo?_edit hasked.memoFresh _)
  exact ⟨hq, hs, answers_leaving_out hq hs⟩

def hurriedActs : List (Act × Bool) := classActs [(.ask 0, true)]

/-- A class that was asked before it joined gives another digest than one that was not. -/
theorem answers_hurried_ne :
    (∀ m ∈ hurriedActs, m.2 = true → m.1.IsQuestion) ∧
      answers ((hurriedActs.filter (!·.2)).map Prod.fst) (.new Preset.full) ≠
        (((answers (hurriedActs.map Prod.fst) (.new Preset.full)).zip hurriedActs).filter
          (!·.2.2)).map Prod.fst := by
  have hasked : (((answers (hurriedActs.map Prod.fst) (.new Preset.full)).zip hurriedActs).filter
      (!·.2.2)).map Prod.fst =
      [.handle ⟨12⟩, .done, .handle ⟨13⟩, .digest ((Body.class {}).digest ⟨"A"⟩)] := by
    let g := ((Graph.new Preset.full).create ⟨"p"⟩ (.package [])).1
    have hh : (Element.new "A" (.class {})).hash = .ok ((Body.class {}).digest ⟨"A"⟩, _) := rfl
    have hlast : ∀ g' h, g.addElement _ (some ⟨12⟩) = .ok (g', h) → (g'.hashElement h).2 = .ok _ :=
      fun _ _ => Graph.hashElement_of_asked hh
    exact congrArg (fun o => [Answer.handle ⟨12⟩, .done, .handle ⟨13⟩, .of .digest o])
      (hlast _ ⟨13⟩ rfl)
  have hunasked : answers ((hurriedActs.filter (!·.2)).map Prod.fst) (.new Preset.full) =
      [.handle ⟨12⟩, .done, .handle ⟨13⟩, .digest ((Body.class {}).digest ⟨"p::A"⟩)] := rfl
  have hdigest : (Body.class {}).digest ⟨"A"⟩ ≠ (Body.class {}).digest ⟨"p::A"⟩ := by
    simp only [Body.digest, HashInput.digest_eq_hashNumbers]
    decide +kernel
  constructor
  · simp [hurriedActs, classActs, IsQuestion]
  · rw [hasked, hunasked]
    simpa using hdigest.symm

end Act

end ModelGraph
