import Mathlib.Logic.Relation
import ModelGraph.Proofs.Registration

namespace ModelGraph

namespace Path

/-- The first path with a separator and some more text is the second. -/
def Encloses (q p : Path) : Prop := ∃ rest, p.text = q.text ++ "::" ++ rest

theorem encloses_iff {p q : Path} :
    q.Encloses p ↔ ∃ rest, p.text.toList = q.text.toList ++ ':' :: ':' :: rest := by
  have hsep : "::".toList = [':', ':'] := rfl
  constructor
  · rintro ⟨rest, h⟩
    exact ⟨rest.toList, by simp [h, hsep]⟩
  · rintro ⟨rest, h⟩
    refine ⟨String.ofList rest, String.toList_inj.mp ?_⟩
    simp [h, hsep]

theorem encloses_nest (q : Path) (name : String) : q.Encloses (q.nest name) := ⟨name, rfl⟩

theorem Encloses.trans {o p q : Path} (h : o.Encloses q) (h' : q.Encloses p) : o.Encloses p := by
  obtain ⟨rest, hq⟩ := h
  obtain ⟨rest', hp⟩ := h'
  exact ⟨rest ++ "::" ++ rest', by rw [hp, hq]; simp only [String.append_assoc]⟩

theorem encloses_of_package? {p q : Path} (h : p.package? = some q) : q.Encloses p := by
  rw [← join_name_of_package? h]
  exact q.encloses_nest p.name

theorem encloses_of_mem_ancestors {p q : Path} (h : q ∈ p.ancestors) : q.Encloses p := by
  fun_induction ancestors p with
  | case1 p o ho ih =>
    rcases List.mem_cons.mp h with rfl | h
    · exact encloses_of_package? ho
    · exact (ih h).trans (encloses_of_package? ho)
  | case2 => cases h

/-- A separator of a text is the last one, overlaps it by a colon, or stands before it. -/
theorem separator_cases {q o rest n : List Char} (hn : ':' ∉ n)
    (h : q ++ ':' :: ':' :: rest = o ++ ':' :: ':' :: n) :
    q = o ∨ o = q ++ [':'] ∨ ∃ between, o = q ++ ':' :: ':' :: between := by
  rcases List.append_eq_append_iff.mp h with ⟨more, ho, hsep⟩ | ⟨more, hq, hsep⟩
  · match more with
    | [] => exact .inl (by rw [ho, List.append_nil])
    | [c] =>
      simp only [List.singleton_append, List.cons.injEq] at hsep
      obtain ⟨rfl, -⟩ := hsep
      exact .inr (.inl ho)
    | c :: d :: between =>
      simp only [List.cons_append, List.cons.injEq] at hsep
      obtain ⟨rfl, rfl, -⟩ := hsep
      exact .inr (.inr ⟨between, ho⟩)
  · match more with
    | [] => exact .inl (by rw [hq, List.append_nil])
    | [c] =>
      simp only [List.singleton_append, List.cons.injEq] at hsep
      exact absurd (by rw [hsep.2.2]; exact List.mem_cons_self) hn
    | c :: d :: between =>
      simp only [List.cons_append, List.cons.injEq] at hsep
      exact absurd (by rw [hsep.2.2]; simp) hn

theorem toList_ne_concat_colon {p : Path} (hp : p.fault? = none) (s : List Char) :
    p.text.toList ≠ s ++ [':'] := by
  intro h
  have hn := isSegment_name hp
  have hsuffix : p.name.toList <:+ p.text.toList := by
    have hj := join_package?_name p
    cases ho : p.package? with
    | none =>
      rw [ho] at hj
      exact ⟨[], congrArg (fun p => p.text.toList) hj⟩
    | some q =>
      rw [ho] at hj
      refine ⟨q.text.toList ++ [':', ':'], ?_⟩
      rw [List.append_assoc]
      exact (toList_nest q p.name).symm.trans (congrArg (fun p => p.text.toList) hj)
  obtain ⟨before, hbefore⟩ := hsuffix
  have hlast := congrArg List.getLast? (hbefore.trans h)
  rw [List.getLast?_append, List.getLast?_eq_some_getLast hn.ne_nil, List.getLast?_concat,
    Option.some_or, Option.some.injEq] at hlast
  exact hn.no_colon (hlast ▸ List.getLast_mem hn.ne_nil)

/-- The packages around an accepted path are the paths before its separators, from whichever side
these are looked for. -/
theorem mem_ancestors_iff_encloses {p q : Path} (hp : p.fault? = none) :
    q ∈ p.ancestors ↔ q.Encloses p := by
  refine ⟨encloses_of_mem_ancestors, fun h => ?_⟩
  fun_induction ancestors p with
  | case1 p o ho ih =>
    obtain ⟨rest, hrest⟩ := encloses_iff.mp h
    have hjoin : o.nest p.name = p := join_name_of_package? ho
    have hcut : q.text.toList ++ ':' :: ':' :: rest =
        o.text.toList ++ ':' :: ':' :: p.name.toList := by
      rw [← hrest, ← toList_nest, hjoin]
    have hname := isSegment_name hp
    have haccepted := fault?_package hp ho
    rcases separator_cases hname.no_colon hcut with hsame | hstray | ⟨between, hinner⟩
    · exact List.mem_cons.mpr (.inl (ext_toList hsame))
    · exact absurd hstray (toList_ne_concat_colon haccepted _)
    · exact List.mem_cons_of_mem o (ih haccepted (encloses_iff.mpr ⟨between, hinner⟩))
  | case2 p ho =>
    -- Without a package the path is a segment, and a segment has no separator.
    obtain ⟨rest, hrest⟩ := encloses_iff.mp h
    have hjoin : (⟨p.name⟩ : Path) = p := join_name_of_package? ho
    have hcolon : ':' ∉ p.text.toList := by
      rw [← hjoin]
      exact (isSegment_name hp).no_colon
    exact absurd (by rw [hrest]; simp) hcolon

end Path

namespace Graph

variable {g : Graph} {root h : Handle} {e x : Element}

def IsOwner (g : Graph) (o h : Handle) : Prop := ∃ x, g.LiveAt h x ∧ x.package = some o

def InSubtree (g : Graph) (root : Handle) : Handle → Prop := Relation.ReflTransGen g.IsOwner root

theorem inSubtree_self (g : Graph) (root : Handle) : g.InSubtree root root := .refl

theorem InSubtree.live (wi : g.InSubtree root h) (hl : g.LiveAt root e) : ∃ x, g.LiveAt h x := by
  cases wi with
  | refl => exact ⟨e, hl⟩
  | tail _ howner =>
    obtain ⟨x, hx, -⟩ := howner
    exact ⟨x, hx⟩

/-- Whatever belongs to a subtree, but for its root, is owned by what belongs to it. -/
theorem InSubtree.owner (wi : g.InSubtree root h) (hx : g.LiveAt h x) (hne : h ≠ root) :
    ∃ o, x.package = some o ∧ g.InSubtree root o := by
  cases wi with
  | refl => exact absurd rfl hne
  | tail wi howner =>
    obtain ⟨y, hy, ho⟩ := howner
    exact ⟨_, hx.unique hy ▸ ho, wi⟩

namespace WellFormed

variable (w : g.WellFormed)
include w

theorem isOwner_iff_mem {o : Handle} {p : Element} (hp : g.LiveAt o p) :
    g.IsOwner o h ↔ h ∈ p.body.children := by
  constructor
  · rintro ⟨x, hx, ho⟩
    obtain ⟨p', hp', -, -, hcount⟩ := w.owner h x o hx ho
    rw [hp.unique hp', ← List.count_pos_iff, hcount]
    exact Nat.one_pos
  · exact w.owned o p h hp.1

theorem isOwner_slot_lt {o : Handle} (howner : g.IsOwner o h) : o.slot < h.slot := by
  obtain ⟨x, hx, ho⟩ := howner
  obtain ⟨-, -, -, hlt, -⟩ := w.owner h x o hx ho
  exact hlt

theorem slot_le_of_inSubtree (wi : g.InSubtree root h) : root.slot ≤ h.slot := by
  induction wi with
  | refl => exact Nat.le_refl _
  | tail _ howner ih => exact Nat.le_trans ih (Nat.le_of_lt (w.isOwner_slot_lt howner))

theorem inSubtree_of_mem_ancestors (hl : g.LiveAt root e) (hx : g.LiveAt h x)
    (ha : e.path ∈ x.path.ancestors) : g.InSubtree root h := by
  generalize hp : x.path = path at ha
  fun_induction Path.ancestors path generalizing h x with
  | case1 path q hq ih =>
    subst hp
    obtain ⟨o, y, ho, hy, rfl⟩ := w.owner_of_package? hx hq
    refine Relation.ReflTransGen.tail ?_ ⟨x, hx, ho⟩
    rcases List.mem_cons.mp ha with hsame | ha
    · exact w.handle_eq hl hy hsame ▸ g.inSubtree_self root
    · exact ih hy rfl ha
  | case2 => cases ha

/-- The tree of owners is the tree of paths. -/
theorem inSubtree_iff_encloses (hl : g.LiveAt root e) (hx : g.LiveAt h x) :
    g.InSubtree root h ↔ h = root ∨ e.path.Encloses x.path := by
  constructor
  · intro wi
    induction wi generalizing x with
    | refl => exact .inl rfl
    | @tail o h _ howner ih =>
      obtain ⟨y, hy, ho⟩ := howner
      rw [hx.unique hy, w.path_eq h y hy, ho]
      obtain ⟨p, hp, -⟩ := w.owner h y o hy ho
      rw [Option.map_some, hp.pathOf]
      refine .inr ?_
      rcases ih hp with rfl | henc
      · rw [hp.unique hl]
        exact Path.encloses_nest _ _
      · exact henc.trans (Path.encloses_nest _ _)
  · rintro (rfl | henc)
    · exact .refl
    · exact w.inSubtree_of_mem_ancestors hl hx
        ((Path.mem_ancestors_iff_encloses (w.fault?_path hx)).mpr henc)

end WellFormed

end Graph
end ModelGraph
