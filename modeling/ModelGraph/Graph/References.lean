import ModelGraph.Graph.Basic

namespace ModelGraph.Graph

/-- The element that a reference is to be bound to: the owner of its path, if it belongs to the
family. -/
def resolve (g : Graph) (l : Link) : Except GraphError Handle :=
  match g.lookup l.path with
  | none => .error (.referenceResolution l.path l.family.label none)
  | some h =>
    match g.element? h with
    | none => .error (.referenceResolution l.path l.family.label none)
    | some e =>
      if l.family.admits e.body then .ok h
      else .error (.referenceResolution l.path l.family.label (some e.kind.label))

/-- Binds what can be resolved; a reference that can't keeps its binding. -/
def bind (g : Graph) : Rebinding := fun _ r =>
  match g.resolve r.link with
  | .ok h => { r with target := some h }
  | .error _ => r

def target (g : Graph) (l : Link) : Except GraphError Element :=
  match l.target.bind g.element? with
  | some e => .ok e
  | none => .error (.unresolvedReference l.path)

def typedTarget (g : Graph) (l : Link) : Except GraphError Element := do
  let e ← g.target l
  if l.family.admits e.body then return e
  else throw (.referenceResolution l.path l.family.label (some e.kind.label))

def resolveFault? (g : Graph) (l : Link) : Option GraphError :=
  match g.resolve l with
  | .ok _ => none
  | .error fault => some fault

def resolveFaults (g : Graph) (b : Body) : List GraphError := b.links.filterMap g.resolveFault?

/-- Binds the references of all elements that are alive, and says which could not be bound. -/
def resolveAll (g : Graph) : Graph × List GraphError :=
  (g.updateLive fun e => { e with body := e.body.rebind g.bind },
    g.live.flatMap fun l => g.resolveFaults l.2.body)

structure HeldLink where
  holder : Handle
  link : Link
  deriving DecidableEq, Repr

def links (g : Graph) : List HeldLink :=
  g.live.flatMap fun l => l.2.body.links.map fun link => ⟨l.1, link⟩

def unresolved (g : Graph) : List HeldLink := g.links.filter fun l => l.link.target.isNone

def dead (g : Graph) : List HeldLink := g.links.filter fun l => l.link.target.any g.isDeleted

def pruneAt (isDead : Handle → Bool) (state : Graph × Nat) (h : Handle) : Graph × Nat :=
  match state.1.element? h with
  | none => state
  | some e =>
    let (pruned, removed) := e.prune isDead
    (state.1.update (fun _ => pruned) h, state.2 + removed)

/-- The element after a cleaner; one that changed it counts as an edit. -/
def cleaned (isDead : Handle → Bool) (clean : Cleaner) (e : Element) : Element :=
  match e.body with
  | .extension x =>
    match clean isDead x with
    | some x => e.edit fun _ => .extension x
    | none => e
  | _ => e

/-- Removes the list entries bound to deleted elements, then lets the cleaners of the registry go
over all elements. The number is that of the entries removed. -/
def sweep (g : Graph) : Graph × Nat :=
  let (pruned, removed) := g.index.values.foldl (pruneAt g.isDeleted) (g, 0)
  let clean (h : Graph) (c : Cleaner) : Graph := h.updateLive (cleaned g.isDeleted c)
  (g.registry.cleaners.foldl clean pruned, removed)

def unbound (b : Body) : Body := b.rebind fun _ r => r.unbind

end ModelGraph.Graph
