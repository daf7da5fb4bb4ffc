import ModelGraph.Domain.Class
import ModelGraph.Domain.Enumeration
import ModelGraph.Domain.Function
import ModelGraph.Extension.Body
import ModelGraph.Mapping.Basic
import ModelGraph.Service
import ModelGraph.Store.Database

namespace ModelGraph

/-- The kind of an element; extension kinds are named by a tag. -/
inductive Kind where
  | package | primitiveType | profile | enumeration | «class» | association | function | database
  | mapping | connection | runtime | service
  | extension (tag : String)
  deriving DecidableEq, Repr

namespace Kind

def label : Kind → String
  | .package => "Package"
  | .primitiveType => "PrimitiveType"
  | .profile => "Profile"
  | .enumeration => "Enumeration"
  | .class => "Class"
  | .association => "Association"
  | .function => "Function"
  | .database => "Database"
  | .mapping => "Mapping"
  | .connection => "Connection"
  | .runtime => "Runtime"
  | .service => "Service"
  | .extension tag => tag

def isCore : Kind → Bool
  | .extension _ => false
  | _ => true

def core : List Kind :=
  [.package, .primitiveType, .profile, .enumeration, .class, .association, .function, .database,
    .mapping, .connection, .runtime, .service]

end Kind

inductive Body where
  | package (children : List Handle)
  | primitiveType
  | profile (p : Profile)
  | enumeration (e : Enumeration)
  | class (c : Class)
  | association (a : Association)
  | function (f : Function)
  | database (d : Database)
  | mapping (m : Mapping)
  | connection (c : Connection)
  | runtime (r : Runtime)
  | service (s : Service)
  | extension (e : Extension)
  deriving Repr

namespace Body

def kind : Body → Kind
  | .package _ => .package
  | .primitiveType => .primitiveType
  | .profile _ => .profile
  | .enumeration _ => .enumeration
  | .class _ => .class
  | .association _ => .association
  | .function _ => .function
  | .database _ => .database
  | .mapping _ => .mapping
  | .connection _ => .connection
  | .runtime _ => .runtime
  | .service _ => .service
  | .extension e => .extension e.kind

def children : Body → List Handle
  | .package children => children
  | _ => []

def mapChildren (f : List Handle → List Handle) : Body → Body
  | .package children => .package (f children)
  | b => b

/-- The annotations of an element itself; not all kinds have some. -/
def annotations? : Body → Option Annotations
  | .enumeration e => some e.annotations
  | .class c => some c.annotations
  | .association a => some a.annotations
  | .function f => some f.annotations
  | .service s => some s.annotations
  | _ => none

def mapAnnotations (f : Annotations → Annotations) : Body → Body
  | .enumeration e => .enumeration { e with annotations := f e.annotations }
  | .class c => .class { c with annotations := f c.annotations }
  | .association a => .association { a with annotations := f a.annotations }
  | .function g => .function { g with annotations := f g.annotations }
  | .service s => .service { s with annotations := f s.annotations }
  | b => b

def links : Body → List Link
  | .package _ => []
  | .primitiveType => []
  | .profile _ => []
  | .enumeration e => e.links
  | .class c => c.links
  | .association a => a.links
  | .function f => f.links
  | .database d => d.links
  | .mapping m => m.links
  | .connection c => c.links
  | .runtime r => r.links
  | .service s => s.links
  | .extension e => e.links

def rebind (f : Rebinding) : Body → Body
  | .package children => .package children
  | .primitiveType => .primitiveType
  | .profile p => .profile p
  | .enumeration e => .enumeration (e.rebind f)
  | .class c => .class (c.rebind f)
  | .association a => .association (a.rebind f)
  | .function g => .function (g.rebind f)
  | .database d => .database (d.rebind f)
  | .mapping m => .mapping (m.rebind f)
  | .connection c => .connection (c.rebind f)
  | .runtime r => .runtime (r.rebind f)
  | .service s => .service (s.rebind f)
  | .extension e => .extension (e.rebind f)

/-- The body without the list entries that are bound to dead elements. References that stand alone
stay. -/
def prune (isDead : Handle → Bool) : Body → Body
  | .class c => .class { c with superTypes := c.superTypes.filter fun r => !r.target.any isDead }
  | .database d => .database { d with includes := d.includes.filter fun r => !r.target.any isDead }
  | .mapping m => .mapping (m.prune isDead)
  | .runtime r => .runtime (r.prune isDead)
  | .service s => .service (s.prune isDead)
  | b => b

def entries : Body → Nat
  | .class c => c.superTypes.length
  | .database d => d.includes.length
  | .mapping m => m.entries
  | .runtime r => r.entries
  | .service s => s.entries
  | _ => 0

def unwire : Body → Body
  | .mapping m => .mapping m.unwire
  | b => b

/-- The stores that a store includes; other bodies are no stores. -/
def storeIncludes? : Body → Option (List (Reference .store))
  | .database d => some d.includes
  | .extension e => e.storeIncludes?
  | _ => none

/-- What the structural hash of a body at a path is computed from. Packages and primitive types are
hashed by path alone. -/
def hashInput (path : Path) : Body → HashInput
  | .package _ => .tag .package ++ .text path.text
  | .primitiveType => .tag .primitiveType ++ .text path.text
  | .profile p => p.hashInput path
  | .enumeration e => e.hashInput path
  | .class c => c.hashInput path
  | .association a => a.hashInput path
  | .function f => f.hashInput path
  | .database d => d.hashInput path
  | .mapping m => m.hashInput path
  | .connection c => c.elementHashInput path
  | .runtime r => r.elementHashInput path
  | .service s => s.hashInput path
  | .extension e => e.hashInput path

def digest (path : Path) (b : Body) : Digest := (b.hashInput path).digest

end Body

def Family.admits : Family → Body → Bool
  | .package, .package _ => true
  | .primitiveType, .primitiveType => true
  | .profile, .profile _ => true
  | .enumeration, .enumeration _ => true
  | .class, .class _ => true
  | .association, .association _ => true
  | .function, .function _ => true
  | .database, .database _ => true
  | .mapping, .mapping _ => true
  | .connection, .connection _ => true
  | .runtime, .runtime _ => true
  | .service, .service _ => true
  | .type, .class _ => true
  | .type, .enumeration _ => true
  | .type, .primitiveType => true
  | .classOrAssociation, .class _ => true
  | .classOrAssociation, .association _ => true
  | .store, b => b.storeIncludes?.isSome
  | _, _ => false

end ModelGraph
