import ModelGraph.Graph.Lifecycle
import ModelGraph.Graph.Mappings
import ModelGraph.Graph.Removal
import ModelGraph.Proofs.IndexLaws

namespace ModelGraph

theorem Handle.slot_inj {h h' : Handle} : h.slot = h'.slot ↔ h = h' := by
  cases h
  cases h'
  simp

namespace Graph

theorem element?_update (f : Element → Element) (h : Handle) (g : Graph) (h' : Handle) :
    (g.update f h).element? h' = if h' = h then (g.element? h').map f else g.element? h' := by
  simp only [update, element?, Array.getElem?_modify, Handle.slot_inj, eq_comm]

@[simp]
theorem index_update (f : Element → Element) (h : Handle) (g : Graph) :
    (g.update f h).index = g.index := rfl

@[simp]
theorem lookup_update (f : Element → Element) (h : Handle) (g : Graph) (p : Path) :
    (g.update f h).lookup p = g.lookup p := rfl

@[simp]
theorem roster_update (f : Element → Element) (h : Handle) (g : Graph) :
    (g.update f h).roster = g.roster := rfl

@[simp]
theorem registry_update (f : Element → Element) (h : Handle) (g : Graph) :
    (g.update f h).registry = g.registry := rfl

@[simp]
theorem size_update (f : Element → Element) (h : Handle) (g : Graph) :
    (g.update f h).elements.size = g.elements.size := by
  simp [update]

theorem slot_lt_of_element? {g : Graph} {h : Handle} {e : Element} (he : g.element? h = some e) :
    h.slot < g.elements.size := by
  simp only [element?, Array.getElem?_eq_some_iff] at he
  exact he.1

section Fold

variable (f : Handle → Element → Element)

theorem element?_foldl_update {hs : List Handle} (hn : hs.Nodup) (g : Graph) (h : Handle) :
    (hs.foldl (fun g h => g.update (f h) h) g).element? h =
      if h ∈ hs then (g.element? h).map (f h) else g.element? h := by
  induction hs generalizing g with
  | nil => simp
  | cons a hs ih =>
    simp only [List.nodup_cons] at hn
    rw [List.foldl_cons, ih hn.2, element?_update]
    by_cases ha : h = a
    · subst ha
      simp [hn.1]
    · simp [ha]

end Fold

theorem element?_push (e : Element) (owner : Option Handle) (path : Path) (g : Graph) (h : Handle)
    (ho : ∀ o, owner = some o → o.slot < g.elements.size) :
    (g.push e owner path).1.element? h =
      if h = ⟨g.elements.size⟩ then some (e.attach owner path)
      else if owner = some h then
        (g.element? h).map fun e =>
          { e with body := e.body.mapChildren (· ++ [⟨g.elements.size⟩]) }
      else g.element? h := by
  have hadd : ∀ h : Handle, (g.elements.push (e.attach owner path))[h.slot]? =
      if h = ⟨g.elements.size⟩ then some (e.attach owner path) else g.element? h := by
    intro h
    simp only [Array.getElem?_push, element?, ← Handle.slot_inj]
  cases owner with
  | none =>
    simp only [push, reduceCtorEq, if_false]
    exact hadd h
  | some o =>
    have hne : o ≠ ⟨g.elements.size⟩ := by
      intro he
      have hlt := ho o rfl
      rw [he] at hlt
      exact absurd hlt (Nat.lt_irrefl _)
    simp only [push, element?_update, Option.some.injEq]
    by_cases hh : h = o
    · subst hh
      rw [if_pos rfl, if_neg hne, if_pos rfl]
      exact congrArg (Option.map _) ((hadd h).trans (if_neg hne))
    · rw [if_neg hh, if_neg (Ne.symm hh)]
      exact hadd h

theorem index_push (e : Element) (owner : Option Handle) (path : Path) (g : Graph) :
    (g.push e owner path).1.index = g.index.insert path ⟨g.elements.size⟩ := by
  cases owner <;> rfl

theorem roster_push (e : Element) (owner : Option Handle) (path : Path) (g : Graph) :
    (g.push e owner path).1.roster = g.roster ++ [(e.kind, ⟨g.elements.size⟩)] := by
  cases owner <;> rfl

theorem registry_push (e : Element) (owner : Option Handle) (path : Path) (g : Graph) :
    (g.push e owner path).1.registry = g.registry := by
  cases owner <;> rfl

theorem snd_push (e : Element) (owner : Option Handle) (path : Path) (g : Graph) :
    (g.push e owner path).2 = ⟨g.elements.size⟩ := by
  cases owner <;> rfl

theorem element?_freeze (g : Graph) (h : Handle) :
    g.freeze.element? h = (g.element? h).map Element.freeze := by
  simp [freeze, element?]

end Graph
end ModelGraph
