import ModelGraph.Json.Canonical
import ModelGraph.Json.Printer
import ModelGraph.Json.Reader
import ModelGraph.Path

/-!
Models in exchange: lists of entities.

An entity is an element in transit, with its path, the path of its classifier and its content. A
model is written as an array of entities, or as an object that holds this array under `entities`.
-/

namespace ModelGraph

structure Entity where
  path : Path
  classifier : String
  content : Json
  deriving Repr

abbrev Model := List Entity

namespace Entity

def headerMembers : List String := ["_type", "name", "package"]

def type? (e : Entity) : Option String := (e.content.member? "_type").bind Json.text?

def document (e : Entity) : Json := e.content.without headerMembers

def canonical (e : Entity) : Entity := { e with content := e.content.canonical }

def agrees (a b : Entity) : Bool :=
  a.path == b.path && a.classifier == b.classifier && a.content.agrees b.content

/-- The value of a key that stands exactly once among members. -/
def single? (key : String) (members : List (String × Json)) : Option Json :=
  match members.filter (·.1 == key) with
  | [m] => some m.2
  | _ => none

def ofParts? (path classifier content : Json) : Option Entity := do
  return { path := ⟨← path.text?⟩, classifier := ← classifier.text?, content := content.normal }

/-- Reads an entity from an object, which may have other members, or from an array of its parts. -/
def ofJson? : Json → Option Entity
  | .obj members => do
    ofParts? (← single? "path" members) (← single? "classifierPath" members)
      (← single? "content" members)
  | .arr [path, classifier, content] => ofParts? path classifier content
  | _ => none

def toJson (e : Entity) : Json :=
  .obj [("path", .str e.path.text), ("classifierPath", .str e.classifier), ("content", e.content)]

end Entity

namespace Model

def ofJson? : Json → Option Model
  | .arr items => items.mapM Entity.ofJson?
  | .obj members => do (← Entity.single? "entities" members).list? Entity.ofJson?
  | _ => none

def parse? (text : String) : Option Model := (Json.parse? text).bind ofJson?

def toJson (m : Model) : Json := .obj [("entities", .arr (m.map Entity.toJson))]

def text (m : Model) : String := m.toJson.pretty

/-- Entities by ascending path; of equal paths the former comes first. -/
def sorted (m : Model) : Model := m.mergeSort fun a b => decide (a.path.text ≤ b.path.text)

def canonical (m : Model) : Model := sorted (m.map Entity.canonical)

end Model
end ModelGraph
