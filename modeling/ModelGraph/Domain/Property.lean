import ModelGraph.Domain.Annotation
import ModelGraph.Domain.Multiplicity

namespace ModelGraph

structure Property where
  name : String
  multiplicity : Multiplicity
  type : Reference .type
  annotations : Annotations := {}
  deriving DecidableEq, Repr

namespace Property

def links (p : Property) : List Link := p.type.link :: p.annotations.links

def rebind (f : Rebinding) (p : Property) : Property :=
  { p with type := f _ p.type, annotations := p.annotations.rebind f }

def hashInput (p : Property) : HashInput :=
  .tag .property ++ .text p.name ++ .code p.multiplicity.digest ++ .text p.type.path.text ++
    p.annotations.hashInput

def digest (p : Property) : Digest := p.hashInput.digest

def ofJson? (j : Json) : Option Property := do
  let r ← Record.ofJson? ["name", "type", "multiplicity", "stereotypes", "taggedValues"] j
  return {
    name := ← r.text "name"
    type := ← r.required "type" Reference.ofJson?
    multiplicity := ← r.required "multiplicity" Multiplicity.ofJson?
    annotations := ← Annotations.ofRecord? r }

def toJson (names : Naming) (p : Property) : Json :=
  Record.toJson (.field "name" (.str p.name) ++ .field "type" (p.type.toJson names) ++
    .field "multiplicity" p.multiplicity.toJson ++ p.annotations.record names)

end Property

/-- A property whose value a lambda computes. Parameters and body are free-form. -/
structure DerivedProperty where
  name : String
  returnType : Reference .type
  returnMultiplicity : Multiplicity
  parameters : Json
  body : Json
  annotations : Annotations := {}
  deriving Repr

namespace DerivedProperty

def links (p : DerivedProperty) : List Link := p.returnType.link :: p.annotations.links

def rebind (f : Rebinding) (p : DerivedProperty) : DerivedProperty :=
  { p with returnType := f _ p.returnType, annotations := p.annotations.rebind f }

def hashInput (p : DerivedProperty) : HashInput :=
  .tag .derivedProperty ++ .text p.name ++ .text p.returnType.path.text ++
    .code p.returnMultiplicity.digest ++ .json p.parameters ++ .json p.body ++
    p.annotations.hashInput

def digest (p : DerivedProperty) : Digest := p.hashInput.digest

def ofJson? (j : Json) : Option DerivedProperty := do
  let r ← Record.ofJson?
    ["name", "parameters", "returnType", "returnMultiplicity", "body", "stereotypes",
      "taggedValues"] j
  return {
    name := ← r.text "name"
    parameters := r.value "parameters"
    returnType := ← r.required "returnType" Reference.ofJson?
    returnMultiplicity := ← r.required "returnMultiplicity" Multiplicity.ofJson?
    body := r.value "body"
    annotations := ← Annotations.ofRecord? r }

def toJson (names : Naming) (p : DerivedProperty) : Json :=
  Record.toJson (.field "name" (.str p.name) ++ .valueField "parameters" p.parameters ++
    .field "returnType" (p.returnType.toJson names) ++
    .field "returnMultiplicity" p.returnMultiplicity.toJson ++ .valueField "body" p.body ++
    p.annotations.record names)

end DerivedProperty
end ModelGraph
