import ModelGraph.Domain.Annotation

namespace ModelGraph

structure EnumValue where
  name : String
  annotations : Annotations := {}
  deriving DecidableEq, Repr

namespace EnumValue

def rebind (f : Rebinding) (v : EnumValue) : EnumValue :=
  { v with annotations := v.annotations.rebind f }

def hashInput (v : EnumValue) : HashInput :=
  .tag .enumValue ++ .text v.name ++ v.annotations.hashInput

def digest (v : EnumValue) : Digest := v.hashInput.digest

def ofJson? (j : Json) : Option EnumValue := do
  let r ← Record.ofJson? ["value", "stereotypes", "taggedValues"] j
  return { name := ← r.text "value", annotations := ← Annotations.ofRecord? r }

def toJson (names : Naming) (v : EnumValue) : Json :=
  Record.toJson (.field "value" (.str v.name) ++ v.annotations.record names)

end EnumValue

structure Enumeration where
  values : List EnumValue := []
  annotations : Annotations := {}
  deriving DecidableEq, Repr

namespace Enumeration

def hasValue (e : Enumeration) (name : String) : Bool := e.values.any (·.name == name)

def links (e : Enumeration) : List Link :=
  e.annotations.links ++ e.values.flatMap (·.annotations.links)

def rebind (f : Rebinding) (e : Enumeration) : Enumeration where
  values := e.values.map (·.rebind f)
  annotations := e.annotations.rebind f

def hashInput (path : Path) (e : Enumeration) : HashInput :=
  .tag .enumeration ++ .text path.text ++ .codes (e.values.map EnumValue.digest) ++
    e.annotations.hashInput

def ofJson? (j : Json) : Option Enumeration := do
  let r ← Record.ofJson? ["values", "stereotypes", "taggedValues"] j
  return { values := ← r.list "values" EnumValue.ofJson?, annotations := ← Annotations.ofRecord? r }

def toJson (names : Naming) (e : Enumeration) : Json :=
  Record.toJson (.listField "values" (e.values.map (·.toJson names)) ++ e.annotations.record names)

end Enumeration
end ModelGraph
