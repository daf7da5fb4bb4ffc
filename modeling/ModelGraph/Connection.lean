import ModelGraph.Reference
import ModelGraph.Document

namespace ModelGraph

/-- The store of a connection: the model itself, or a store element. -/
inductive ConnectionStore where
  | model
  | store (r : Reference .store)
  deriving DecidableEq, Repr

namespace ConnectionStore

def modelPath : String := "ModelStore"

def ofPath (path : String) : ConnectionStore :=
  if path = modelPath then .model else .store (.ofText path)

def path : ConnectionStore → String
  | .model => modelPath
  | .store r => r.path.text

def target : ConnectionStore → Option Handle
  | .model => none
  | .store r => r.target

def links : ConnectionStore → List Link
  | .model => []
  | .store r => [r.link]

def rebind (f : Rebinding) : ConnectionStore → ConnectionStore
  | .model => .model
  | .store r => .store (f _ r)

def hashInput (s : ConnectionStore) : HashInput := .tag .connection ++ .text s.path

def digest (s : ConnectionStore) : Digest := s.hashInput.digest

def toJson (names : Naming) : ConnectionStore → Json
  | .model => .str modelPath
  | .store r => r.toJson names

end ConnectionStore

/-- A connection. Besides its type and store it keeps all its members as they are, by key. -/
structure Connection where
  type : String
  store : Option ConnectionStore := none
  specification : List (String × Json) := []
  deriving Repr

namespace Connection

def links (c : Connection) : List Link :=
  match c.store with
  | some s => s.links
  | none => []

def rebind (f : Rebinding) (c : Connection) : Connection :=
  { c with store := c.store.map (·.rebind f) }

def hashInput (c : Connection) : HashInput :=
  .tag .connection ++ .text c.type ++ .optText (c.store.map ConnectionStore.path) ++
    .json (.obj c.specification)

def digest (c : Connection) : Digest := c.hashInput.digest

def elementHashInput (path : Path) (c : Connection) : HashInput :=
  .tag .connection ++ .text path.text ++ .code c.digest

/-- Reads an object; it may have any members besides `_type` and `element`. -/
def ofJson? : Json → Option Connection
  | .obj members => do
    let type ← Record.text members "_type"
    let element ← Record.optText members "element"
    return {
      type
      store := element.map ConnectionStore.ofPath
      specification :=
        Json.sortMembers (members.filter fun m => m.1 != "_type" && m.1 != "element") }
  | _ => none

def toJson (names : Naming) (c : Connection) : Json :=
  Record.tagged c.type (.optField "element" (c.store.map (·.toJson names)) ++ c.specification)

def ofElementJson? (j : Json) : Option Connection := do
  let r ← Record.ofJson? ["connectionValue"] j
  r.required "connectionValue" ofJson?

def toElementJson (names : Naming) (c : Connection) : Json :=
  Record.toJson (.field "connectionValue" (c.toJson names))

end Connection

/-- A connection of a runtime: an element, or written in place. -/
inductive ConnectionValue where
  | pointer (r : Reference .connection)
  | embedded (c : Connection)
  deriving Repr

namespace ConnectionValue

def links : ConnectionValue → List Link
  | .pointer r => [r.link]
  | .embedded c => c.links

def rebind (f : Rebinding) : ConnectionValue → ConnectionValue
  | .pointer r => .pointer (f _ r)
  | .embedded c => .embedded (c.rebind f)

def hashInput : ConnectionValue → HashInput
  | .pointer r => .text "pointer" ++ .code r.digest
  | .embedded c => .text "embedded" ++ .code c.digest

def ofJson? (j : Json) : Option ConnectionValue :=
  if (j.member? "_type").bind Json.text? = some "connectionPointer" then do
    let r ← Record.ofJson? ["_type", "connection"] j
    return .pointer (← r.required "connection" Reference.ofJson?)
  else (Connection.ofJson? j).map .embedded

def toJson (names : Naming) : ConnectionValue → Json
  | .pointer r => Record.tagged "connectionPointer" (.field "connection" (r.toJson names))
  | .embedded c => c.toJson names

end ConnectionValue

structure IdentifiedConnection where
  id : String
  connection : ConnectionValue
  deriving Repr

namespace IdentifiedConnection

def rebind (f : Rebinding) (c : IdentifiedConnection) : IdentifiedConnection :=
  { c with connection := c.connection.rebind f }

def hashInput (c : IdentifiedConnection) : HashInput :=
  .tag .connection ++ .text c.id ++ c.connection.hashInput

def digest (c : IdentifiedConnection) : Digest := c.hashInput.digest

def ofJson? (j : Json) : Option IdentifiedConnection := do
  let r ← Record.ofJson? ["id", "connection"] j
  return ⟨← r.text "id", ← r.required "connection" ConnectionValue.ofJson?⟩

def toJson (names : Naming) (c : IdentifiedConnection) : Json :=
  Record.toJson (.field "id" (.str c.id) ++ .field "connection" (c.connection.toJson names))

end IdentifiedConnection
end ModelGraph
