import ModelGraph.Domain.Property

namespace ModelGraph

/-- A parameter. Its kind is kept only where it was written. -/
structure Parameter where
  kind : Option String := none
  name : String
  type : Reference .type
  multiplicity : Multiplicity
  deriving DecidableEq, Repr

namespace Parameter

def rebind (f : Rebinding) (p : Parameter) : Parameter := { p with type := f _ p.type }

def hashInput (p : Parameter) : HashInput :=
  .tag .parameter ++ .text p.name ++ .text p.type.path.text ++ .code p.multiplicity.digest

def digest (p : Parameter) : Digest := p.hashInput.digest

def ofJson? (j : Json) : Option Parameter := do
  let r ← Record.ofJson? ["_type", "name", "class", "multiplicity"] j
  return {
    kind := ← r.optText "_type"
    name := ← r.text "name"
    type := ← r.required "class" Reference.ofJson?
    multiplicity := ← r.required "multiplicity" Multiplicity.ofJson? }

def toJson (names : Naming) (p : Parameter) : Json :=
  Record.toJson (.optField "_type" (p.kind.map .str) ++ .field "name" (.str p.name) ++
    .field "class" (p.type.toJson names) ++ .field "multiplicity" p.multiplicity.toJson)

end Parameter

structure Function where
  parameters : List Parameter := []
  returnType : Reference .type
  returnMultiplicity : Multiplicity
  body : List Json := []
  annotations : Annotations := {}
  deriving Repr

namespace Function

def addParameter (p : Parameter) (f : Function) : Function :=
  { f with parameters := f.parameters ++ [p] }

def findParameter (f : Function) (name : String) : Option Parameter :=
  f.parameters.find? (·.name == name)

def deleteParameter (name : String) (f : Function) : Function :=
  { f with parameters := f.parameters.eraseP (·.name == name) }

def links (f : Function) : List Link :=
  f.returnType.link :: (f.parameters.map (·.type.link) ++ f.annotations.links)

def rebind (g : Rebinding) (f : Function) : Function where
  parameters := f.parameters.map (·.rebind g)
  returnType := g _ f.returnType
  returnMultiplicity := f.returnMultiplicity
  body := f.body
  annotations := f.annotations.rebind g

/-- The expressions of the body come last and are not counted. -/
def hashInput (path : Path) (f : Function) : HashInput :=
  .tag .function ++ .text path.text ++ .codes (f.parameters.map Parameter.digest) ++
    .text f.returnType.path.text ++ .code f.returnMultiplicity.digest ++ f.annotations.hashInput ++
    f.body.flatMap HashInput.json

def ofJson? (j : Json) : Option Function := do
  let r ← Record.ofJson?
    ["parameters", "returnType", "returnMultiplicity", "body", "stereotypes", "taggedValues"] j
  return {
    parameters := ← r.list "parameters" Parameter.ofJson?
    returnType := ← r.required "returnType" Reference.ofJson?
    returnMultiplicity := ← r.required "returnMultiplicity" Multiplicity.ofJson?
    body := ← r.list "body" some
    annotations := ← Annotations.ofRecord? r }

def toJson (names : Naming) (f : Function) : Json :=
  Record.toJson (.listField "parameters" (f.parameters.map (·.toJson names)) ++
    .field "returnType" (f.returnType.toJson names) ++
    .field "returnMultiplicity" f.returnMultiplicity.toJson ++ .listField "body" f.body ++
    f.annotations.record names)

end Function
end ModelGraph
