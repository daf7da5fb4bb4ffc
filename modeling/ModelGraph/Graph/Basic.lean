import ModelGraph.Element
import ModelGraph.Index
import ModelGraph.Registry

/-!
Graphs of elements.

A graph keeps every element it ever held, in the order in which they came, so that a handle stays
good for ever. Its index holds the elements that are alive by path, and its roster by kind. Every
graph holds the primitive types.
-/

namespace ModelGraph

structure Graph where
  elements : Array Element := #[]
  index : Index Handle := .empty
  roster : List (Kind × Handle) := []
  registry : Registry := .empty
  frozen : Bool := false
  disposed : Bool := false

namespace Graph

def element? (g : Graph) (h : Handle) : Option Element := g.elements[h.slot]?

def body? (g : Graph) (h : Handle) : Option Body := (g.element? h).map Element.body

def lookup (g : Graph) (p : Path) : Option Handle := g.index.get? p

def elementAt? (g : Graph) (p : Path) : Option Element := (g.lookup p).bind g.element?

def live (g : Graph) : List (Handle × Element) :=
  g.index.values.filterMap fun h => (g.element? h).map fun e => (h, e)

def size (g : Graph) : Nat := g.index.size

def fuel (g : Graph) : Nat := g.elements.size + 1

/-- The elements of a kind that are alive, in the order in which they came. -/
def ofKind (g : Graph) (k : Kind) : List (Handle × Element) :=
  (g.roster.filter (·.1 == k)).filterMap fun r => (g.element? r.2).map fun e => (r.2, e)

def isDeleted (g : Graph) (h : Handle) : Bool := (g.element? h).any (·.deleted)

/-- The path of an element, empty for a handle of no element. -/
def pathOf (g : Graph) (h : Handle) : Path :=
  match g.element? h with
  | some e => e.path
  | none => ⟨""⟩

/-- A reference is called by the present path of its target, or while unbound by its own path. -/
def referencePath (g : Graph) : Naming := fun l =>
  match l.target.bind g.element? with
  | some e => e.path
  | none => l.path

def elementOfKind (g : Graph) (p : Path) (k : Kind) : Except GraphError Element :=
  match (g.elementAt? p).filter (·.kind == k) with
  | some e => .ok e
  | none => .error (.elementNotFound p k.label)

def elementOfFamily (g : Graph) (p : Path) (f : Family) : Except GraphError Element :=
  match (g.elementAt? p).filter fun e => f.admits e.body with
  | some e => .ok e
  | none => .error (.elementNotFound p f.label)

def update (f : Element → Element) (h : Handle) (g : Graph) : Graph :=
  { g with elements := g.elements.modify h.slot f }

def updateLive (f : Element → Element) (g : Graph) : Graph :=
  g.index.values.foldl (fun g h => g.update f h) g

def edit (f : Body → Body) (h : Handle) (g : Graph) : Graph := g.update (·.edit f) h

def push (e : Element) (owner : Option Handle) (path : Path) (g : Graph) : Graph × Handle :=
  let h : Handle := ⟨g.elements.size⟩
  let added := { g with
    elements := g.elements.push (e.attach owner path)
    index := g.index.insert path h
    roster := g.roster ++ [(e.kind, h)] }
  match owner with
  | some o => (added.update (fun e => { e with body := e.body.mapChildren (· ++ [h]) }) o, h)
  | none => (added, h)

def primitiveNames : List String :=
  ["String", "Boolean", "Binary", "Date", "StrictDate", "DateTime", "StrictTime", "Number", "Float",
    "Decimal", "Integer", "Byte"]

def new (registry : Registry) : Graph :=
  primitiveNames.foldl
    (fun g name => (g.push (Element.new name .primitiveType).freeze none ⟨name⟩).1)
    { registry }

def ownerPath (g : Graph) (name : String) : Option Handle → Except GraphError (Option Path)
  | none => .ok none
  | some h =>
    match g.element? h with
    | none => .error (.invalidPath ⟨name⟩ "the owner is not in the graph")
    | some owner =>
      if owner.deleted || !owner.isPackage then
        .error
          (.invalidPath (owner.path.nest name) ("`" ++ owner.path.text ++ "` is not a package"))
      else .ok (some owner.path)

def notSimple (name : String) : String := "`" ++ name ++ "` is not a simple name"

def addElement (e : Element) (owner : Option Handle) (g : Graph) :
    Except GraphError (Graph × Handle) := do
  let path := Path.join (← g.ownerPath e.name owner) e.name
  if g.frozen then throw (.immutableElementMutation path)
  if !Path.isSimpleName e.name then throw (.invalidPath path (notSimple e.name))
  if g.index.contains path then throw (.duplicatePath path)
  return g.push e owner path

def addStep (e : Element) (owner : Option Handle) (g : Graph) : Graph × Except GraphError Handle :=
  match g.addElement e owner with
  | .ok (g, h) => (g, .ok h)
  | .error fault => (g, .error fault)

/-- The package at a path, made with the packages around it where they are missing. Packages already
made stay when one of them can't be made. -/
def ensurePackage (g : Graph) (p : Path) : Graph × Except GraphError Handle :=
  match g.lookup p with
  | some h =>
    if (g.element? h).any (·.isPackage) then (g, .ok h)
    else (g, .error (.invalidPath p "an element other than a package owns this path"))
  | none =>
    match _h : p.package? with
    | none => g.addStep (.new p.name (.package [])) none
    | some q =>
      match g.ensurePackage q with
      | (g, .ok owner) => g.addStep (.new p.name (.package [])) (some owner)
      | (g, .error fault) => (g, .error fault)
termination_by p.text.toList.length
decreasing_by exact Path.package?_length _h

def create (p : Path) (body : Body) (g : Graph) : Graph × Except GraphError Handle :=
  match p.fault? with
  | some fault => (g, .error (.invalidPath p fault.message))
  | none =>
    match p.package? with
    | none => g.addStep (.new p.name body) none
    | some q =>
      match g.ensurePackage q with
      | (g, .ok owner) => g.addStep (.new p.name body) (some owner)
      | (g, .error fault) => (g, .error fault)

end Graph
end ModelGraph
