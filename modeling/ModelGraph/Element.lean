import ModelGraph.Body
import ModelGraph.Error

/-!
Elements: a body under a path, with the history of its edits.

Every edit of the body raises the revision. The digest of an element is kept beside the revision for
which it was computed, and a frozen element whose revision has moved on has been modified against
its will.
-/

namespace ModelGraph

structure Element where
  name : String
  path : Path
  /-- The package that owns the element. -/
  package : Option Handle := none
  body : Body
  deleted : Bool := false
  immutable : Bool := false
  disposed : Bool := false
  revision : Nat := 0
  /-- The revision at which the element was frozen. -/
  frozenRevision : Nat := 0
  /-- The digest last computed and the revision it was computed for. -/
  memo : Option (Nat × Digest) := none
  deriving Repr

namespace Element

def new (name : String) (body : Body) : Element := { name, path := ⟨name⟩, body }

def kind (e : Element) : Kind := e.body.kind

def isStub (e : Element) : Bool := e.name.isEmpty && e.package.isNone

def isPackage (e : Element) : Bool := e.kind == .package

def touch (e : Element) : Element := { e with revision := e.revision + 1 }

def edit (f : Body → Body) (e : Element) : Element := { e.touch with body := f e.body }

def attach (package : Option Handle) (path : Path) (e : Element) : Element :=
  { e with package, path }

def rename (name : String) (path : Path) (e : Element) : Element := { e.touch with name, path }

def relocate (path : Path) (e : Element) : Element := { e.touch with path }

def freeze (e : Element) : Element := { e with immutable := true, frozenRevision := e.revision }

def dispose (e : Element) : Element := { e with disposed := true, memo := none }

def isViolated (e : Element) : Bool := e.immutable && e.revision != e.frozenRevision

def freshDigest (e : Element) : Digest := e.body.digest e.path

def memo? (e : Element) : Option Digest :=
  match e.memo with
  | some (revision, digest) => if revision = e.revision then some digest else none
  | none => none

def hashFault? (e : Element) : Option GraphError :=
  if e.disposed then some (.disposedElementAccess e.path)
  else if e.isViolated then some (.immutableElementMutation e.path)
  else none

def hash (e : Element) : Except GraphError (Digest × Element) :=
  match e.hashFault? with
  | some fault => .error fault
  | none =>
    match e.memo? with
    | some digest => .ok (digest, e)
    | none => .ok (e.freshDigest, { e with memo := some (e.revision, e.freshDigest) })

/-- The element without the list entries bound to dead elements, and how many there were. -/
def prune (isDead : Handle → Bool) (e : Element) : Element × Nat :=
  let body := e.body.prune isDead
  let removed := e.body.entries - body.entries
  if removed = 0 then ({ e with body }, 0) else ({ e.touch with body }, removed)

end Element
end ModelGraph
