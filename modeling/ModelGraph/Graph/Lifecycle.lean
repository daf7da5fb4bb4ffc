import ModelGraph.Graph.References

namespace ModelGraph.Graph

def freeze (g : Graph) : Graph :=
  { g with elements := g.elements.map Element.freeze, frozen := true }

def dispose (g : Graph) : Graph :=
  { g with
    elements := g.elements.map fun e => { e with body := (unbound e.body).unwire }.dispose
    disposed := true }

def hashElement (h : Handle) (g : Graph) : Graph × Except GraphError Digest :=
  match g.element? h with
  | none => (g, .error (.elementNotFound ⟨""⟩ "element"))
  | some e =>
    match e.hash with
    | .ok (digest, e) => (g.update (fun _ => e) h, .ok digest)
    | .error fault => (g, .error fault)

def hash (p : Path) (g : Graph) : Graph × Except GraphError Digest :=
  match g.lookup p with
  | none => (g, .error (.elementNotFound p "element"))
  | some h => g.hashElement h

/-- Packages and primitive types are no part of a model. -/
def isModelled : Kind → Bool
  | .package => false
  | .primitiveType => false
  | _ => true

/-- Hashes elements one after the other, up to the first that has no digest. -/
def hashAll :
    List (Handle × Element) → Index Digest → Graph → Graph × Except GraphError (Index Digest)
  | [], found, g => (g, .ok found)
  | (h, e) :: rest, found, g =>
    if isModelled e.kind then
      match g.hashElement h with
      | (g, .ok digest) => hashAll rest (found.insert e.path digest) g
      | (g, .error fault) => (g, .error fault)
    else hashAll rest found g

def hashIndex (g : Graph) : Graph × Except GraphError (Index Digest) :=
  match hashAll g.live .empty g with
  | (g, .ok found) => (g, .ok found.sorted)
  | (g, .error fault) => (g, .error fault)

end ModelGraph.Graph
