import ModelGraph.Proofs.RenumberedChanges
import ModelGraph.Proofs.RenumberedLookups

namespace ModelGraph

/-- An element, by its path or by its handle. -/
inductive Address where
  | path (p : Path)
  | handle (h : Handle)

inductive Request where
  | create (path : Path) (body : Body)
  | lookup (path : Path)
  | element (a : Address)
  | elementOfKind (path : Path) (kind : Kind)
  | elementOfFamily (path : Path) (family : Family)
  | elements
  | elementsOfKind (kind : Kind)
  | referencePath (l : Link)
  | property (owner : Address) (name : String)
  | classMapping (mapping : Address) (id : String)
  | unresolved
  | dead
  | rename (a : Address) (name : String)
  | delete (a : Address)
  | resolve
  | wire
  | sweep
  | hash (path : Path)
  | hashIndex
  | write

inductive Answer where
  | done
  | missing
  | failed (fault : GraphError)
  | path (p : Path)
  | handle (h : Handle)
  | element (e : Element)
  | elements (ls : List (Handle × Element))
  | property (p : Property)
  | setImplementation (s : SetHandle)
  | links (ls : List Graph.HeldLink)
  | faults (faults : List GraphError)
  | number (n : Nat)
  | digest (d : Digest)
  | digests (x : Index Digest)
  | model (m : Except WriteError Model)

namespace Address

def find (g : Graph) : Address → Option Handle
  | .path p => g.lookup p
  | .handle h => some h

def renumber (φ : Handle → Handle) : Address → Address
  | .path p => .path p
  | .handle h => .handle (φ h)

end Address

namespace Answer

def of {α : Type} (f : α → Answer) : Except GraphError α → Answer
  | .ok a => f a
  | .error fault => .failed fault

def renumber (φ : Handle → Handle) : Answer → Answer
  | .handle h => .handle (φ h)
  | .element e => .element (e.renumber φ)
  | .elements ls => .elements (ls.map (Prod.map φ (Element.renumber φ)))
  | .property p => .property (p.rebind (retarget φ))
  | .setImplementation s => .setImplementation (s.renumber φ)
  | .links ls => .links (ls.map fun l => ⟨φ l.holder, l.link.renumber φ⟩)
  | a => a

end Answer

namespace Request

def ask (a : Address) (g : Graph) (answer : Handle → Graph × Answer) : Graph × Answer :=
  match a.find g with
  | some h => answer h
  | none => (g, .missing)

def settle (g : Graph) : Except GraphError Graph → Graph × Answer
  | .ok g => (g, .done)
  | .error fault => (g, .failed fault)

def run : Request → Graph → Graph × Answer
  | .create path body, g => ((g.create path body).1, .of .handle (g.create path body).2)
  | .lookup path, g => (g, (g.lookup path).elim .missing .handle)
  | .element a, g => ask a g fun h => (g, (g.element? h).elim .missing .element)
  | .elementOfKind path kind, g => (g, .of .element (g.elementOfKind path kind))
  | .elementOfFamily path family, g => (g, .of .element (g.elementOfFamily path family))
  | .elements, g => (g, .elements g.live)
  | .elementsOfKind kind, g => (g, .elements (g.ofKind kind))
  | .referencePath l, g => (g, .path (g.referencePath l))
  | .property owner name, g => ask owner g fun h => (g, .of .property (g.findProperty h name))
  | .classMapping mapping id, g =>
    ask mapping g fun h => (g, .of .setImplementation (g.classMappingById h id))
  | .unresolved, g => (g, .links g.unresolved)
  | .dead, g => (g, .links g.dead)
  | .rename a name, g => ask a g fun h => settle g (g.rename h name)
  | .delete a, g => ask a g fun h => settle g (g.delete h)
  | .resolve, g => (g.resolveAll.1, .faults g.resolveAll.2)
  | .wire, g => (g.wireAll.1, .faults g.wireAll.2)
  | .sweep, g => (g.sweep.1, .number g.sweep.2)
  | .hash path, g => ((g.hash path).1, .of .digest (g.hash path).2)
  | .hashIndex, g => (g.hashIndex.1, .of .digests g.hashIndex.2)
  | .write, g => (g, .model g.toModel)

def renumber (φ : Handle → Handle) : Request → Request
  | .create path body => .create path (body.renumber φ)
  | .element a => .element (a.renumber φ)
  | .referencePath l => .referencePath (l.renumber φ)
  | .property owner name => .property (owner.renumber φ) name
  | .classMapping mapping id => .classMapping (mapping.renumber φ) id
  | .rename a name => .rename (a.renumber φ) name
  | .delete a => .delete (a.renumber φ)
  | q => q

/-- New elements own nothing. -/
def Allowed : Request → Prop
  | .create _ body => body.children = []
  | _ => True

/-- The answers to requests that are made one after the other. -/
def answers : List Request → Graph → List Answer
  | [], _ => []
  | q :: qs, g => (q.run g).2 :: answers qs (q.run g).1

end Request

namespace Graph.Renumbered

variable {r : Registry} {φ : Handle → Handle} {k : Nat} {g g' : Graph}

theorem entity? (m : Renumbered r φ k g g') (hw : r.WritesByName) (e : Element) :
    g'.entity? (e.renumber φ) = g.entity? e := by
  have hspelled := e.body.hull_spelled_renumber m.referencePath
  have hhull : ∀ (e : Element) (b : Body), (bare r).entity? { e with body := b.hull } =
      (bare r).entity? { e with body := b } := by
    intro e b
    cases b <;> rfl
  have hplain : ∀ (a : Graph) (e : Element), a.registry = r → a.entity? e =
      (bare r).entity? { e with body := (e.body.spelled a.referencePath).hull } := by
    intro a e ha
    have hwa : a.registry.WritesByName := by
      rw [ha]
      exact hw
    rw [hhull, ← ha]
    exact (entity?_spelled hwa e).symm
  rw [hplain g' _ m.registry.2, hplain g e m.registry.1]
  exact entity?_congr rfl rfl hspelled

theorem toModel (m : Renumbered r φ k g g') (hw : r.WritesByName) : g'.toModel = g.toModel := by
  have hentity : ∀ l : Handle × Element, g'.entity? (Prod.map φ (Element.renumber φ) l).2 =
      g.entity? l.2 := fun l => m.entity? hw l.2
  rw [Graph.toModel, Graph.toModel, m.live]
  simp only [List.mapM_map, Function.comp_def, hentity]

theorem find (m : Renumbered r φ k g g') (a : Address) :
    (a.renumber φ).find g' = (a.find g).map φ := by
  cases a with
  | path p => exact m.lookup p
  | handle h => rfl

def Answers (r : Registry) (φ : Handle → Handle) (k : Nat) (s s' : Graph × Answer) : Prop :=
  Renumbered r φ k s.1 s'.1 ∧ s'.2 = s.2.renumber φ

theorem ask (m : Renumbered r φ k g g') (a : Address) {answer answer' : Handle → Graph × Answer}
    (h : ∀ h, Answers r φ k (answer h) (answer' (φ h))) :
    Answers r φ k (Request.ask a g answer) (Request.ask (a.renumber φ) g' answer') := by
  rw [Request.ask, Request.ask, m.find]
  cases a.find g with
  | none => exact ⟨m, rfl⟩
  | some i => exact h i

theorem settle (m : Renumbered r φ k g g') {o o' : Except GraphError Graph}
    (h : SameOutcome (Renumbered r φ k) o o') :
    Answers r φ k (Request.settle g o) (Request.settle g' o') := by
  cases h with
  | ok ma => exact ⟨ma, rfl⟩
  | error fault => exact ⟨m, rfl⟩

theorem of_eq {α β : Type} {f : α → β} {a : α → Answer} {b : β → Answer} {o : Except GraphError α}
    {o' : Except GraphError β} (ho : o' = o.map f) (h : ∀ x, b (f x) = (a x).renumber φ) :
    Answer.of b o' = (Answer.of a o).renumber φ := by
  rw [ho]
  cases o with
  | ok x => exact h x
  | error fault => rfl

theorem run (m : Renumbered r φ k g g') (hc : r.cleaners = []) (hw : r.WritesByName) {q : Request}
    (hq : q.Allowed) : Answers r φ k (q.run g) ((q.renumber φ).run g') := by
  cases q with
  | create path body =>
    obtain ⟨ma, ha⟩ := m.create path hq
    exact ⟨ma, of_eq ha fun _ => rfl⟩
  | lookup path =>
    refine ⟨m, ?_⟩
    simp only [Request.run, Request.renumber, m.lookup]
    cases g.lookup path <;> rfl
  | element a =>
    refine m.ask a fun h => ⟨m, ?_⟩
    simp only [m.element]
    cases g.element? h <;> rfl
  | elementOfKind path kind =>
    exact ⟨m, of_eq (m.elementOfKind path kind) fun _ => rfl⟩
  | elementOfFamily path family =>
    exact ⟨m, of_eq (m.elementOfFamily path family) fun _ => rfl⟩
  | elements => exact ⟨m, congrArg Answer.elements m.live⟩
  | elementsOfKind kind => exact ⟨m, congrArg Answer.elements (m.ofKind kind)⟩
  | referencePath l => exact ⟨m, congrArg Answer.path (m.referencePath l)⟩
  | property owner name =>
    exact m.ask owner fun h =>
      ⟨m, of_eq (m.findProperty h) fun _ => rfl⟩
  | classMapping mapping id =>
    exact m.ask mapping fun h =>
      ⟨m, of_eq (m.classMappingById h id) fun _ => rfl⟩
  | unresolved => exact ⟨m, congrArg Answer.links m.unresolved⟩
  | dead => exact ⟨m, congrArg Answer.links m.dead⟩
  | rename a name => exact m.ask a fun h => m.settle (m.rename h name)
  | delete a => exact m.ask a fun h => m.settle (m.delete h)
  | resolve => exact ⟨m.resolveAll.1, congrArg Answer.faults m.resolveAll.2⟩
  | wire => exact ⟨m.wireAll.1, congrArg Answer.faults m.wireAll.2⟩
  | sweep => exact ⟨(m.sweep hc).1, congrArg Answer.number (m.sweep hc).2⟩
  | hash path =>
    obtain ⟨ma, ha⟩ := m.hash path
    refine ⟨ma, ?_⟩
    simp only [Request.run, Request.renumber, ha]
    cases (g.hash path).2 <;> rfl
  | hashIndex =>
    obtain ⟨ma, ha⟩ := m.hashIndex
    refine ⟨ma, ?_⟩
    simp only [Request.run, Request.renumber, ha]
    cases g.hashIndex.2 <;> rfl
  | write => exact ⟨m, congrArg Answer.model (m.toModel hw)⟩

theorem answers (hc : r.cleaners = []) (hw : r.WritesByName) (qs : List Request) :
    ∀ {g g' : Graph}, Renumbered r φ k g g' → (∀ q ∈ qs, q.Allowed) →
      Request.answers (qs.map (Request.renumber φ)) g' =
        (Request.answers qs g).map (Answer.renumber φ) := by
  induction qs with
  | nil => exact fun _ _ => rfl
  | cons q qs ih =>
    intro g g' m hq
    obtain ⟨ma, ha⟩ := m.run hc hw (hq q List.mem_cons_self)
    rw [List.map_cons, Request.answers, Request.answers, List.map_cons, ha,
      ih ma fun q hm => hq q (List.mem_cons_of_mem _ hm)]

end Graph.Renumbered
end ModelGraph
