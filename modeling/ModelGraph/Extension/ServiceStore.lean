import ModelGraph.Reference
import ModelGraph.Document
import ModelGraph.Text.Blank

namespace ModelGraph

inductive ServiceStoreError where
  | serviceNotFound (id : String)
  | groupNotFound (id : String)
  | parameterNotFound (name : String)
  | notAServiceStore (path : Path)
  deriving DecidableEq, Repr

namespace ServiceStoreError

def name : ServiceStoreError → String
  | .serviceNotFound _ => "ServiceNotFound"
  | .groupNotFound _ => "ServiceGroupNotFound"
  | .parameterNotFound _ => "ParameterNotFound"
  | .notAServiceStore _ => "NotAServiceStore"

def message : ServiceStoreError → String
  | .serviceNotFound id => "can't find service `" ++ id ++ "`"
  | .groupNotFound id => "can't find service group `" ++ id ++ "`"
  | .parameterNotFound name => "can't find service parameter `" ++ name ++ "`"
  | .notAServiceStore path => "`" ++ path.text ++ "` is not a service store"

end ServiceStoreError

inductive HttpMethod where
  | get
  | post
  deriving DecidableEq, Repr

namespace HttpMethod

def text : HttpMethod → String
  | .get => "GET"
  | .post => "POST"

def ofJson? (j : Json) : Option HttpMethod :=
  match Json.choice? ["GET", "POST"] true j with
  | some "GET" => some .get
  | some "POST" => some .post
  | _ => none

end HttpMethod

inductive ParameterLocation where
  | query
  | path
  | header
  deriving DecidableEq, Repr

namespace ParameterLocation

def text : ParameterLocation → String
  | .query => "QUERY"
  | .path => "PATH"
  | .header => "HEADER"

def ofJson? (j : Json) : Option ParameterLocation :=
  match Json.choice? ["QUERY", "PATH", "HEADER"] true j with
  | some "QUERY" => some .query
  | some "PATH" => some .path
  | some "HEADER" => some .header
  | _ => none

end ParameterLocation

structure ServiceParameter where
  name : String
  location : ParameterLocation
  required : Bool := false
  deriving DecidableEq, Repr

namespace ServiceParameter

def hashInput (p : ServiceParameter) : HashInput :=
  .text p.name ++ .text p.location.text ++ .flag p.required

def ofJson? (j : Json) : Option ServiceParameter := do
  let r ← Record.ofJson? ["name", "location", "required"] j
  return {
    name := ← r.text "name"
    location := ← r.required "location" ParameterLocation.ofJson?
    required := ← r.flag "required" }

def toJson (p : ServiceParameter) : Json :=
  Record.toJson (.field "name" (.str p.name) ++ .field "location" (.str p.location.text) ++
    .field "required" (.bool p.required))

end ServiceParameter

structure HttpService where
  id : String
  path : String
  method : HttpMethod
  parameters : List ServiceParameter := []
  deriving DecidableEq, Repr

namespace HttpService

def parameter (s : HttpService) (name : String) : Except ServiceStoreError ServiceParameter :=
  match s.parameters.find? (·.name == name) with
  | some p => .ok p
  | none => .error (.parameterNotFound name)

def hashInput (s : HttpService) : HashInput :=
  .text "service" ++ .text s.id ++ .text s.path ++ .text s.method.text ++
    s.parameters.flatMap ServiceParameter.hashInput

def ofJson? (j : Json) : Option HttpService := do
  let r ← Record.ofJson? ["id", "path", "method", "parameters"] j
  return {
    id := ← r.text "id"
    path := ← r.text "path"
    method := ← r.required "method" HttpMethod.ofJson?
    parameters := ← r.list "parameters" ServiceParameter.ofJson? }

def toJson (s : HttpService) : Json :=
  Record.tagged "service" (.field "id" (.str s.id) ++ .field "path" (.str s.path) ++
    .field "method" (.str s.method.text) ++
    .listField "parameters" (s.parameters.map ServiceParameter.toJson))

end HttpService

inductive ServiceNode where
  | service (s : HttpService)
  | group (id path : String) (elements : List ServiceNode)
  deriving Repr

structure ServiceGroup where
  id : String
  path : String
  elements : List ServiceNode
  deriving Repr

namespace ServiceNode

def id : ServiceNode → String
  | .service s => s.id
  | .group id _ _ => id

def findService (nodes : List ServiceNode) (id : String) : Except ServiceStoreError HttpService :=
  match nodes.find? (·.id == id) with
  | some (.service s) => .ok s
  | _ => .error (.serviceNotFound id)

def findGroup (nodes : List ServiceNode) (id : String) : Except ServiceStoreError ServiceGroup :=
  match nodes.find? (·.id == id) with
  | some (.group id path elements) => .ok ⟨id, path, elements⟩
  | _ => .error (.groupNotFound id)

/-- The service that the last of the ids names, within the groups that the others name. -/
def findPath (nodes : List ServiceNode) : List String → Except ServiceStoreError HttpService
  | [] => findService nodes ""
  | [id] => findService nodes id
  | id :: ids =>
    match findGroup nodes id with
    | .ok g => findPath g.elements ids
    | .error e => .error e

mutual

def hashInput : ServiceNode → HashInput
  | .service s => s.hashInput
  | .group id path elements =>
    .text "group" ++ .text id ++ .text path ++ hashInputs elements ++ .text "end"

def hashInputs : List ServiceNode → HashInput
  | [] => []
  | n :: rest => n.hashInput ++ hashInputs rest

end

mutual

def toJson : ServiceNode → Json
  | .service s => s.toJson
  | .group id path elements =>
    Record.tagged "serviceGroup" (.field "id" (.str id) ++ .field "path" (.str path) ++
      .listField "elements" (toJsons elements))

def toJsons : List ServiceNode → List Json
  | [] => []
  | n :: rest => n.toJson :: toJsons rest

end

def read : (fuel : Nat) → (nested : Bool) → Json → Option ServiceNode
  | 0, _, _ => none
  | fuel + 1, nested, j => do
    let (tag, j) ← Json.tagged? ["service", "serviceGroup"] nested j
    match tag with
    | "service" => (HttpService.ofJson? j).map .service
    | "serviceGroup" =>
      let r ← Record.ofJson? ["id", "path", "elements"] j
      return .group (← r.text "id") (← r.text "path") (← r.list "elements" (read fuel true))
    | _ => none

def ofJson? (j : Json) : Option ServiceNode := read (j.depth + 1) false j

end ServiceNode

structure ServiceStore where
  includes : List (Reference .store) := []
  description : Option String := none
  elements : List ServiceNode := []
  deriving Repr

namespace ServiceStore

def service (s : ServiceStore) (path : String) : Except ServiceStoreError HttpService :=
  ServiceNode.findPath s.elements ((Text.splitAt '.' path.toList).map String.ofList)

def links (s : ServiceStore) : List Link := s.includes.map Reference.link

def rebind (f : Rebinding) (s : ServiceStore) : ServiceStore :=
  { s with includes := s.includes.map (f _) }

def hashInput (path : Path) (s : ServiceStore) : HashInput :=
  .extensionTag "SERVICE_STORE" ++ .text path.text ++ .codes (s.includes.map Reference.digest) ++
    .optText s.description ++ ServiceNode.hashInputs s.elements

def ofJson? (j : Json) : Option ServiceStore := do
  let r ← Record.ofJson? ["includedStores", "description", "elements"] j
  return {
    includes := ← r.list "includedStores" Reference.ofJson?
    description := ← r.optText "description"
    elements := ← r.list "elements" ServiceNode.ofJson? }

def toJson (names : Naming) (s : ServiceStore) : Json :=
  Record.toJson (.listField "includedStores" (s.includes.map (·.toJson names)) ++
    .optField "description" (s.description.map .str) ++
    .listField "elements" (ServiceNode.toJsons s.elements))

end ServiceStore

/-- A service of a store, by its path within the store. -/
structure ServicePointer where
  store : Reference .store
  service : String
  deriving DecidableEq, Repr

namespace ServicePointer

def hashInput (p : ServicePointer) : HashInput := .code p.store.digest ++ .text p.service

def ofJson? (j : Json) : Option ServicePointer := do
  let r ← Record.ofJson? ["service"] j
  r.required "service" fun j => do
    let r ← Record.ofJson? ["serviceStore", "service"] j
    return ⟨← r.required "serviceStore" Reference.ofJson?, ← r.text "service"⟩

def toJson (names : Naming) (p : ServicePointer) : Json :=
  Record.toJson (.field "service" (Record.toJson
    (.field "serviceStore" (p.store.toJson names) ++ .field "service" (.str p.service))))

end ServicePointer
end ModelGraph
