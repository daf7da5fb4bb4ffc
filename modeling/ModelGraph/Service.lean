import ModelGraph.Domain.Annotation
import ModelGraph.Runtime

namespace ModelGraph

/-- The runtime of an execution: an element, or written in place. -/
inductive RuntimeValue where
  | pointer (r : Reference .runtime)
  | embedded (r : Runtime)
  deriving Repr

namespace RuntimeValue

def links : RuntimeValue → List Link
  | .pointer r => [r.link]
  | .embedded r => r.links

def rebind (f : Rebinding) : RuntimeValue → RuntimeValue
  | .pointer r => .pointer (f _ r)
  | .embedded r => .embedded (r.rebind f)

def prune (isDead : Handle → Bool) : RuntimeValue → RuntimeValue
  | .pointer r => .pointer r
  | .embedded r => .embedded (r.prune isDead)

def entries : RuntimeValue → Nat
  | .pointer _ => 0
  | .embedded r => r.entries

def digest : RuntimeValue → Digest
  | .pointer r => r.digest
  | .embedded r => r.digest

def ofJson? (j : Json) : Option RuntimeValue :=
  if (j.member? "_type").bind Json.text? = some "runtimePointer" then do
    let r ← Record.ofJson? ["_type", "runtime"] j
    return .pointer (← r.required "runtime" Reference.ofJson?)
  else (Runtime.ofJson? j).map .embedded

def toJson (names : Naming) : RuntimeValue → Json
  | .pointer r => Record.tagged "runtimePointer" (.field "runtime" (r.toJson names))
  | .embedded r => r.toJson names

end RuntimeValue

structure Execution where
  query : Json
  mapping : Reference .mapping
  runtime : RuntimeValue
  deriving Repr

namespace Execution

def links (e : Execution) : List Link := e.mapping.link :: e.runtime.links

def rebind (f : Rebinding) (e : Execution) : Execution :=
  { e with mapping := f _ e.mapping, runtime := e.runtime.rebind f }

def hashInput (e : Execution) : HashInput :=
  .json e.query ++ .code e.mapping.digest ++ .code e.runtime.digest

/-- The tag of an execution may be any text and is not kept. -/
def ofJson? (j : Json) : Option Execution := do
  let r ← Record.ofJson? ["_type", "func", "mapping", "runtime"] j
  let _ ← r.withDefault "_type" "pureSingleExecution" Json.text?
  return {
    query := ← r.requiredValue "func"
    mapping := ← r.required "mapping" Reference.ofJson?
    runtime := ← r.required "runtime" RuntimeValue.ofJson? }

def toJson (names : Naming) (e : Execution) : Json :=
  Record.tagged "pureSingleExecution" (.field "func" e.query ++
    .field "mapping" (e.mapping.toJson names) ++ .field "runtime" (e.runtime.toJson names))

end Execution

structure Service where
  pattern : String := ""
  documentation : String := ""
  owners : List String := []
  autoActivateUpdates : Bool := false
  execution : Option Execution := none
  annotations : Annotations := {}
  deriving Repr

namespace Service

def links (s : Service) : List Link :=
  (match s.execution with | some e => e.links | none => []) ++ s.annotations.links

def rebind (f : Rebinding) (s : Service) : Service :=
  { s with execution := s.execution.map (·.rebind f), annotations := s.annotations.rebind f }

def prune (isDead : Handle → Bool) (s : Service) : Service :=
  { s with execution := s.execution.map fun e => { e with runtime := e.runtime.prune isDead } }

def entries (s : Service) : Nat :=
  match s.execution with
  | some e => e.runtime.entries
  | none => 0

def hashInput (path : Path) (s : Service) : HashInput :=
  .tag .service ++ .text path.text ++ .text s.pattern ++ .text s.documentation ++ .texts s.owners ++
    .flag s.autoActivateUpdates ++ .optional Execution.hashInput s.execution ++
    s.annotations.hashInput

def ofJson? (j : Json) : Option Service := do
  let r ← Record.ofJson?
    ["pattern", "documentation", "owners", "autoActivateUpdates", "execution", "stereotypes",
      "taggedValues"] j
  return {
    pattern := ← r.withDefault "pattern" "" Json.text?
    documentation := ← r.withDefault "documentation" "" Json.text?
    owners := ← r.texts "owners"
    autoActivateUpdates := ← r.flag "autoActivateUpdates"
    execution := ← r.optional "execution" Execution.ofJson?
    annotations := ← Annotations.ofRecord? r }

def toJson (names : Naming) (s : Service) : Json :=
  Record.toJson (.field "pattern" (.str s.pattern) ++
    .field "documentation" (.str s.documentation) ++ .listField "owners" (s.owners.map .str) ++
    .field "autoActivateUpdates" (.bool s.autoActivateUpdates) ++
    .optField "execution" (s.execution.map (·.toJson names)) ++ s.annotations.record names)

end Service
end ModelGraph
