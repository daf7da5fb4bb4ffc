import ModelGraph.Domain.Property

namespace ModelGraph

/-- A condition on the instances of a class, by a free-form lambda. -/
structure Constraint where
  name : String
  definition : Json
  deriving Repr

namespace Constraint

def hashInput (c : Constraint) : HashInput :=
  .tag .constraint ++ .text c.name ++ .json c.definition

def digest (c : Constraint) : Digest := c.hashInput.digest

def ofJson? (j : Json) : Option Constraint := do
  let r ← Record.ofJson? ["name", "functionDefinition"] j
  return ⟨← r.text "name", ← r.requiredValue "functionDefinition"⟩

def toJson (c : Constraint) : Json :=
  Record.toJson (.field "name" (.str c.name) ++ .field "functionDefinition" c.definition)

end Constraint

structure Class where
  superTypes : List (Reference .class) := []
  properties : List Property := []
  derivedProperties : List DerivedProperty := []
  constraints : List Constraint := []
  annotations : Annotations := {}
  deriving Repr

namespace Class

def findProperty (c : Class) (name : String) : Option Property :=
  c.properties.find? (·.name == name)

def addProperty (p : Property) (c : Class) : Class := { c with properties := c.properties ++ [p] }

def deleteProperty (name : String) (c : Class) : Class :=
  { c with properties := c.properties.eraseP (·.name == name) }

def addSuperType (r : Reference .class) (c : Class) : Class :=
  { c with superTypes := c.superTypes ++ [r] }

def links (c : Class) : List Link :=
  c.superTypes.map Reference.link ++ c.properties.flatMap Property.links ++
    c.derivedProperties.flatMap DerivedProperty.links ++ c.annotations.links

def rebind (f : Rebinding) (c : Class) : Class where
  superTypes := c.superTypes.map (f _)
  properties := c.properties.map (·.rebind f)
  derivedProperties := c.derivedProperties.map (·.rebind f)
  constraints := c.constraints
  annotations := c.annotations.rebind f

def hashInput (path : Path) (c : Class) : HashInput :=
  .tag .class ++ .text path.text ++ .codes (c.superTypes.map Reference.digest) ++
    .codes (c.properties.map Property.digest) ++
    .codes (c.derivedProperties.map DerivedProperty.digest) ++
    .codes (c.constraints.map Constraint.digest) ++ c.annotations.hashInput

def ofJson? (j : Json) : Option Class := do
  let r ← Record.ofJson?
    ["superTypes", "properties", "qualifiedProperties", "constraints", "stereotypes",
      "taggedValues"] j
  return {
    superTypes := ← r.list "superTypes" Reference.ofJson?
    properties := ← r.list "properties" Property.ofJson?
    derivedProperties := ← r.list "qualifiedProperties" DerivedProperty.ofJson?
    constraints := ← r.list "constraints" Constraint.ofJson?
    annotations := ← Annotations.ofRecord? r }

def toJson (names : Naming) (c : Class) : Json :=
  Record.toJson (.listField "superTypes" (c.superTypes.map (·.toJson names)) ++
    .listField "properties" (c.properties.map (·.toJson names)) ++
    .listField "qualifiedProperties" (c.derivedProperties.map (·.toJson names)) ++
    .listField "constraints" (c.constraints.map Constraint.toJson) ++ c.annotations.record names)

end Class

/-- A relationship between two classes: each of its two properties belongs to the class that is the
type of the other. -/
structure Association where
  properties : List Property := []
  derivedProperties : List DerivedProperty := []
  annotations : Annotations := {}
  deriving Repr

namespace Association

def findProperty (a : Association) (name : String) : Option Property :=
  a.properties.find? (·.name == name)

def opposite (a : Association) (name : String) : Option Property :=
  match a.properties with
  | [first, second] =>
    if first.name = name then some second else if second.name = name then some first else none
  | _ => none

def links (a : Association) : List Link :=
  a.properties.flatMap Property.links ++ a.derivedProperties.flatMap DerivedProperty.links ++
    a.annotations.links

def rebind (f : Rebinding) (a : Association) : Association where
  properties := a.properties.map (·.rebind f)
  derivedProperties := a.derivedProperties.map (·.rebind f)
  annotations := a.annotations.rebind f

def hashInput (path : Path) (a : Association) : HashInput :=
  .tag .association ++ .text path.text ++ .codes (a.properties.map Property.digest) ++
    .codes (a.derivedProperties.map DerivedProperty.digest) ++ a.annotations.hashInput

def ofJson? (j : Json) : Option Association := do
  let r ← Record.ofJson? ["properties", "qualifiedProperties", "stereotypes", "taggedValues"] j
  return {
    properties := ← r.list "properties" Property.ofJson?
    derivedProperties := ← r.list "qualifiedProperties" DerivedProperty.ofJson?
    annotations := ← Annotations.ofRecord? r }

def toJson (names : Naming) (a : Association) : Json :=
  Record.toJson (.listField "properties" (a.properties.map (·.toJson names)) ++
    .listField "qualifiedProperties" (a.derivedProperties.map (·.toJson names)) ++
    a.annotations.record names)

end Association
end ModelGraph
