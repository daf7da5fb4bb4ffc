import ModelGraph.Connection

namespace ModelGraph

structure StoreConnections where
  store : ConnectionStore
  connections : List IdentifiedConnection := []
  deriving Repr

namespace StoreConnections

def links (g : StoreConnections) : List Link :=
  g.store.links ++ g.connections.flatMap (·.connection.links)

def rebind (f : Rebinding) (g : StoreConnections) : StoreConnections where
  store := g.store.rebind f
  connections := g.connections.map (·.rebind f)

def hashInput (g : StoreConnections) : HashInput :=
  .code g.store.digest ++ .codes (g.connections.map IdentifiedConnection.digest)

end StoreConnections

/-- A pointer document: a type, which may be any text, and a path. -/
def pointerPath? (j : Json) : Option String := do
  let r ← Record.ofJson? ["type", "path"] j
  let _ ← r.text "type"
  r.text "path"

def pointerJson (type : String) (path : Json) : Json :=
  Record.toJson (.field "type" (.str type) ++ .field "path" path)

namespace StoreConnections

def ofJson? (j : Json) : Option StoreConnections := do
  let r ← Record.ofJson? ["store", "storeConnections"] j
  return {
    store := .ofPath (← r.required "store" pointerPath?)
    connections := ← r.list "storeConnections" IdentifiedConnection.ofJson? }

def toJson (names : Naming) (g : StoreConnections) : Json :=
  Record.toJson (.field "store" (pointerJson "STORE" (g.store.toJson names)) ++
    .listField "storeConnections" (g.connections.map (·.toJson names)))

end StoreConnections

structure Runtime where
  mappings : List (Reference .mapping) := []
  connections : List StoreConnections := []
  deriving Repr

namespace Runtime

def links (r : Runtime) : List Link :=
  r.mappings.map Reference.link ++ r.connections.flatMap StoreConnections.links

def rebind (f : Rebinding) (r : Runtime) : Runtime where
  mappings := r.mappings.map (f _)
  connections := r.connections.map (·.rebind f)

/-- The runtime without the mappings and the connection groups bound to a dead element. -/
def prune (isDead : Handle → Bool) (r : Runtime) : Runtime where
  mappings := r.mappings.filter fun m => !m.target.any isDead
  connections := r.connections.filter fun g => !g.store.target.any isDead

def entries (r : Runtime) : Nat := r.mappings.length + r.connections.length

def hashInput (r : Runtime) : HashInput :=
  .tag .runtime ++ .codes (r.mappings.map Reference.digest) ++
    r.connections.flatMap StoreConnections.hashInput

def digest (r : Runtime) : Digest := r.hashInput.digest

def elementHashInput (path : Path) (r : Runtime) : HashInput :=
  .tag .runtime ++ .text path.text ++ .code r.digest

/-- The tag of a runtime may be any text and is not kept. -/
def ofJson? (j : Json) : Option Runtime := do
  let r ← Record.ofJson? ["_type", "mappings", "connections"] j
  let _ ← r.withDefault "_type" "engineRuntime" Json.text?
  let mappings ← r.list "mappings" pointerPath?
  return {
    mappings := mappings.map Reference.ofText
    connections := ← r.list "connections" StoreConnections.ofJson? }

def toJson (names : Naming) (r : Runtime) : Json :=
  Record.tagged "engineRuntime"
    (.listField "mappings" (r.mappings.map fun m => pointerJson "MAPPING" (m.toJson names)) ++
      .listField "connections" (r.connections.map (·.toJson names)))

def ofElementJson? (j : Json) : Option Runtime := do
  let r ← Record.ofJson? ["runtimeValue"] j
  r.required "runtimeValue" ofJson?

def toElementJson (names : Naming) (r : Runtime) : Json :=
  Record.toJson (.field "runtimeValue" (r.toJson names))

end Runtime
end ModelGraph
