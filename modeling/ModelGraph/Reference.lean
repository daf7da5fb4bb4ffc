import ModelGraph.Path
import ModelGraph.Digest.Input

/-!
References between elements.

A reference is made from the path written in a document and bound later to the element that owns the
path. Its type names the family of element kinds that it may point to.
-/

namespace ModelGraph

/-- The place of an element in its graph; an element keeps it for good. -/
structure Handle where
  slot : Nat
  deriving DecidableEq, Repr, Inhabited

/-- The kinds of element a reference may point to, one by one or as a family. -/
inductive Family where
  | package | primitiveType | profile | enumeration | «class» | association | function | database
  | mapping | connection | runtime | service | type | classOrAssociation | store
  deriving DecidableEq, Repr

namespace Family

def label : Family → String
  | .package => "package"
  | .primitiveType => "primitive type"
  | .profile => "profile"
  | .enumeration => "enumeration"
  | .class => "class"
  | .association => "association"
  | .function => "function"
  | .database => "database"
  | .mapping => "mapping"
  | .connection => "connection"
  | .runtime => "runtime"
  | .service => "service"
  | .type => "type"
  | .classOrAssociation => "class or association"
  | .store => "store"

def all : List Family :=
  [.package, .primitiveType, .profile, .enumeration, .class, .association, .function, .database,
    .mapping, .connection, .runtime, .service, .type, .classOrAssociation, .store]

def ofLabel? (label : String) : Option Family := all.find? (·.label == label)

end Family

structure Reference (f : Family) where
  path : Path
  target : Option Handle := none
  deriving DecidableEq, Repr

structure Link where
  family : Family
  path : Path
  target : Option Handle
  deriving DecidableEq, Repr

abbrev Naming := Link → Path

abbrev Rebinding := (f : Family) → Reference f → Reference f

namespace Reference

variable {f : Family}

def ofText (path : String) : Reference f := ⟨⟨path⟩, none⟩

def ofPath (path : Path) : Reference f := ⟨path, none⟩

def bound (path : Path) (target : Handle) : Reference f := ⟨path, some target⟩

def link (r : Reference f) : Link := ⟨f, r.path, r.target⟩

def isBound (r : Reference f) : Bool := r.target.isSome

def pointsTo (r : Reference f) (h : Handle) : Bool := r.target == some h

def unbind (r : Reference f) : Reference f := { r with target := none }

def hashInput (r : Reference f) : HashInput := .tag .reference ++ .text r.path.text

def digest (r : Reference f) : Digest := r.hashInput.digest

def ofJson? (j : Json) : Option (Reference f) := j.text?.map ofText

def toJson (names : Naming) (r : Reference f) : Json := .str (names r.link).text

end Reference
end ModelGraph
