import ModelGraph.Proofs.Memos
import ModelGraph.Proofs.WrittenModels

namespace ModelGraph

namespace Index

variable {α : Type} {x y : Index α}

theorem entries_foldl_insert {l : List (Path × α)}
    (h : ((x.entries ++ l).map Prod.fst).Nodup) :
    (l.foldl (fun x e => x.insert e.1 e.2) x).entries = x.entries ++ l := by
  induction l generalizing x with
  | nil => exact (List.append_nil _).symm
  | cons e l ih =>
    have hnew : e.1 ∉ x.entries.map Prod.fst := by
      rw [List.map_append, List.nodup_append] at h
      exact fun hm => h.2.2 _ hm _ (List.mem_map_of_mem List.mem_cons_self) rfl
    have hinsert : (x.insert e.1 e.2).entries = x.entries ++ [e] := put_of_new hnew
    rw [List.foldl_cons, ih, hinsert, List.append_assoc, List.singleton_append]
    rwa [hinsert, List.append_assoc, List.singleton_append]

theorem entries_ofList {l : List (Path × α)} (h : (l.map Prod.fst).Nodup) :
    (ofList l).entries = l :=
  entries_foldl_insert h

theorem perm_sorted (x : Index α) : x.sorted.entries.Perm x.entries := List.mergeSort_perm _ _

theorem ascending_sorted (x : Index α) :
    x.sorted.entries.Pairwise fun a b => a.1.text ≤ b.1.text := by
  refine (List.pairwise_mergeSort ?_ ?_ x.entries).imp of_decide_eq_true
  · intro a b c hab hbc
    exact decide_eq_true (String.le_trans (of_decide_eq_true hab) (of_decide_eq_true hbc))
  · intro a b
    simpa using String.le_total a.1.text b.1.text

theorem sorted_eq_of_perm (h : x.entries.Perm y.entries) : x.sorted = y.sorted := by
  have hperm : x.sorted.entries.Perm y.sorted.entries :=
    (x.perm_sorted.trans h).trans y.perm_sorted.symm
  have hentries : x.sorted.entries = y.sorted.entries := by
    refine hperm.eq_of_pairwise ?_ x.ascending_sorted y.ascending_sorted
    intro a b ha hb hab hba
    have hp : a.1 = b.1 := congrArg Path.mk (String.le_antisymm hab hba)
    exact List.inj_on_of_nodup_map x.sorted.nodup ha (hperm.mem_iff.mpr hb) hp
  cases hx : x.sorted
  cases hy : y.sorted
  rw [hx, hy] at hentries
  cases hentries
  rfl

end Index

namespace Element

variable {e e' : Element}

def unhashed (e : Element) : Element := { e with memo := none }

theorem freshDigest_of_unhashed (h : e'.unhashed = e.unhashed) :
    e'.freshDigest = e.freshDigest := by
  have he (e : Element) : e.unhashed.freshDigest = e.freshDigest := rfl
  rw [← he, h, he]

theorem hashFault?_of_unhashed (h : e'.unhashed = e.unhashed) : e'.hashFault? = e.hashFault? := by
  have he (e : Element) : e.unhashed.hashFault? = e.hashFault? := rfl
  rw [← he, h, he]

theorem unhashed_of_hash {d : Digest} (h : e.hash = .ok (d, e')) : e'.unhashed = e.unhashed := by
  rw [Element.hash] at h
  split at h
  · cases h
  · split at h
    · obtain ⟨-, rfl⟩ := Prod.mk.inj (Except.ok.inj h)
      rfl
    · obtain ⟨-, rfl⟩ := Prod.mk.inj (Except.ok.inj h)
      rfl

theorem exists_hash (h : e.hashFault? = none) : ∃ r, e.hash = .ok r := by
  rw [Element.hash, h]
  cases hm : e.memo? with
  | some d => exact ⟨_, rfl⟩
  | none => exact ⟨_, rfl⟩

end Element

namespace Graph

variable {g g₀ : Graph} {h : Handle} {e : Element}

theorem keeps_hashElement (h : Handle) (g : Graph) :
    Keeps Element.unhashed g (g.hashElement h).1 := by
  rw [hashElement]
  split
  · exact .refl g
  · next e he =>
    split
    · next d e' hh =>
      refine Keeps.update fun x hx => ?_
      rw [Option.some.inj (hx.symm.trans he)]
      exact Element.unhashed_of_hash hh
    · exact .refl g

theorem MemosFresh.hashElement_eq (f : g.MemosFresh) (he : g.element? h = some e)
    (hf : e.hashFault? = none) : (g.hashElement h).2 = .ok e.freshDigest := by
  obtain ⟨⟨d, e'⟩, hh⟩ := Element.exists_hash hf
  rw [Graph.hashElement, he]
  simp only [hh]
  rw [((f h e he).hash hh).1]

theorem MemosFresh.hashAll_eq {ls : List (Handle × Element)} {found : Index Digest}
    (f : g.MemosFresh) (k : Keeps Element.unhashed g₀ g)
    (hls : ∀ l ∈ ls, g₀.element? l.1 = some l.2 ∧ l.2.hashFault? = none) :
    (Graph.hashAll ls found g).2 = .ok (((ls.filter fun l => isModelled l.2.kind).map fun l =>
      (l.2.path, l.2.freshDigest)).foldl (fun x e => x.insert e.1 e.2) found) := by
  induction ls generalizing g found with
  | nil => rfl
  | cons l ls ih =>
    obtain ⟨he, hf⟩ := hls l List.mem_cons_self
    have hrest := fun l' hl' => hls l' (List.mem_cons_of_mem l hl')
    by_cases hm : isModelled l.2.kind = true
    · obtain ⟨e', he', hu⟩ := k.element? he
      have hdigest := f.hashElement_eq he' ((Element.hashFault?_of_unhashed hu).trans hf)
      rw [Element.freshDigest_of_unhashed hu] at hdigest
      rw [Graph.hashAll, if_pos hm, List.filter_cons, if_pos hm, List.map_cons, List.foldl_cons]
      split
      · next g' d hh =>
        have hg' : g' = (g.hashElement l.1).1 := by rw [hh]
        rw [hh] at hdigest
        obtain rfl := Except.ok.inj hdigest
        rw [hg']
        exact ih (f.hashElement l.1) (k.trans (keeps_hashElement l.1 g)) hrest
      · next hh =>
        rw [hh] at hdigest
        cases hdigest
    · rw [Graph.hashAll, if_neg hm, List.filter_cons, if_neg hm]
      exact ih f k hrest

/-- What a graph is asked for when it is asked for the digests of its model. -/
def digests (g : Graph) : List (Path × Digest) :=
  (g.live.filter fun l => isModelled l.2.kind).map fun l => (l.2.path, l.2.freshDigest)

theorem mem_digests (w : g.WellFormed) {p : Path} {d : Digest} : (p, d) ∈ g.digests ↔
    ∃ h e, g.LiveAt h e ∧ isModelled e.kind = true ∧ e.path = p ∧ e.freshDigest = d := by
  simp only [digests, List.mem_map, List.mem_filter, Prod.mk.injEq]
  constructor
  · rintro ⟨⟨h, e⟩, ⟨hl, hm⟩, hp, hd⟩
    exact ⟨h, e, (mem_live w).mp hl, hm, hp, hd⟩
  · rintro ⟨h, e, hl, hm, hp, hd⟩
    exact ⟨(h, e), ⟨(mem_live w).mpr hl, hm⟩, hp, hd⟩

theorem nodup_digests (w : g.WellFormed) : (g.digests.map Prod.fst).Nodup := by
  rw [List.nodup_iff_pairwise_ne, digests, List.map_map, List.pairwise_map]
  exact (pairwise_live w).filter _

theorem MemosFresh.hashIndex_eq (f : g.MemosFresh) (w : g.WellFormed)
    (hf : ∀ h e, g.LiveAt h e → e.hashFault? = none) :
    g.hashIndex.2 = .ok (Index.ofList g.digests).sorted := by
  have hlive : ∀ l ∈ g.live, g.element? l.1 = some l.2 ∧ l.2.hashFault? = none := by
    rintro ⟨h, e⟩ hl
    have hl := (mem_live w).mp hl
    exact ⟨hl.1, hf h e hl⟩
  have hall : (Graph.hashAll g.live .empty g).2 = .ok (Index.ofList g.digests) :=
    f.hashAll_eq (.refl g) hlive
  rw [Graph.hashIndex]
  split
  · next hh =>
    rw [hh] at hall
    rw [Except.ok.inj hall]
  · next hh =>
    rw [hh] at hall
    cases hall

end Graph

/-- The history of an element: nothing of it was edited, hashed or disposed of. -/
structure Element.Untouched (e : Element) : Prop where
  revision : e.revision = 0
  frozenRevision : e.frozenRevision = 0
  memo : e.memo = none
  disposed : e.disposed = false

theorem Element.Untouched.hashFault?_eq_none {e : Element} (u : e.Untouched) :
    e.hashFault? = none := by
  rw [hashFault?, isViolated, u.disposed, u.revision, u.frozenRevision]
  simp

namespace Graph

variable {g g' : Graph}

def Untouched (g : Graph) : Prop := ∀ h e, g.element? h = some e → e.Untouched

theorem Untouched.memosFresh (u : g.Untouched) : g.MemosFresh :=
  fun h e he => Element.memoFresh_of_none (u h e he).memo

theorem Pushes.untouched (a : Pushes Element.Untouched g g') (u : g.Untouched) : g'.Untouched := by
  refine a.forall_elements ?_ ?_ u
  · intro h e owner path _ he
    exact ⟨he.revision, he.frozenRevision, he.memo, he.disposed⟩
  · intro h e f he
    exact ⟨he.revision, he.frozenRevision, he.memo, he.disposed⟩

theorem untouched_new (r : Registry) : (new r).Untouched := by
  apply (pushes_new (fun _ => ⟨rfl, rfl, rfl, rfl⟩) r).untouched
  intro h e he
  cases he

theorem pushes_register {sort : Element → Prop} (hsort : ∀ name body, sort (.new name body))
    (entries : List Entry) (g : Graph) : Pushes sort g (register entries g).1 := by
  induction entries generalizing g with
  | nil => exact .refl
  | cons e entries ih =>
    have hentry : Pushes sort g (registerEntry e g).1 := by
      rw [registerEntry]
      split
      · exact .refl
      · next body _ =>
        have hcreate := pushes_create (fun _ => hsort _ _) e.entity.path (fun _ => hsort _ body) g
        split <;>
        · next hc =>
          rw [hc] at hcreate
          exact hcreate
    exact hentry.trans (ih _)

theorem Keeps.untouched
    (k : Keeps (fun e => (e.revision, e.frozenRevision, e.memo, e.disposed)) g g')
    (u : g.Untouched) : g'.Untouched := by
  intro h e' he'
  obtain ⟨e, he, hhistory⟩ := k.symm.element? he'
  simp only [Prod.mk.injEq] at hhistory
  obtain ⟨hr, hf, hm, hd⟩ := hhistory
  have hu := u h e he
  exact ⟨hr ▸ hu.revision, hf ▸ hu.frozenRevision, hm ▸ hu.memo, hd ▸ hu.disposed⟩

theorem Untouched.resolveAll (u : g.Untouched) : g.resolveAll.1.Untouched := by
  refine Keeps.untouched (Keeps.updateLive ?_ g) u
  intro e
  rfl

theorem Untouched.wireAll (u : g.Untouched) : g.wireAll.1.Untouched := by
  refine Keeps.untouched (Keeps.foldl ?_ g) u
  intro g' h _
  refine Keeps.update ?_
  intro e _
  rfl

theorem Untouched.freeze (u : g.Untouched) : g.freeze.Untouched := by
  intro h e' he'
  rw [element?_freeze, Option.map_eq_some_iff] at he'
  obtain ⟨e, he, rfl⟩ := he'
  have hu := u h e he
  exact ⟨hu.revision, hu.revision, hu.memo, hu.disposed⟩

theorem untouched_of_build {r : Registry} {freeze : Bool} {m : Model}
    (hb : build r freeze m = .ok g) : g.Untouched := by
  obtain ⟨entries, contents, g₁, p⟩ := prepared_of_build hb
  have hregistered : g₁.Untouched := by
    have hpushes : Pushes Element.Untouched (new r) (register entries (new r)).1 :=
      pushes_register (fun _ _ => ⟨rfl, rfl, rfl, rfl⟩) entries (new r)
    rw [p.registered] at hpushes
    exact hpushes.untouched (untouched_new r)
  rw [p.build_eq] at hb
  obtain ⟨-, -, rfl⟩ := conclude_eq_ok.mp hb
  cases freeze with
  | false => exact hregistered.resolveAll.wireAll
  | true => exact hregistered.resolveAll.wireAll.freeze

theorem hashIndex_of_build {r : Registry} {freeze : Bool} {m : Model}
    (hb : build r freeze m = .ok g) : g.hashIndex.2 = .ok (Index.ofList g.digests).sorted := by
  obtain ⟨entries, contents, g₁, p⟩ := prepared_of_build hb
  have hu := untouched_of_build hb
  exact hu.memosFresh.hashIndex_eq (p.finished hb).wellFormed
    fun h e hl => (hu h e hl.1).hashFault?_eq_none

end Graph
end ModelGraph
