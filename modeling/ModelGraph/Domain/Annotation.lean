import ModelGraph.Reference
import ModelGraph.Document

namespace ModelGraph

/-- A profile declares stereotypes and tags by name. -/
structure Profile where
  stereotypes : List String := []
  tags : List String := []
  deriving DecidableEq, Repr

namespace Profile

def hasStereotype (p : Profile) (name : String) : Bool := p.stereotypes.contains name

def hasTag (p : Profile) (name : String) : Bool := p.tags.contains name

def hashInput (path : Path) (p : Profile) : HashInput :=
  .tag .profile ++ .text path.text ++ .texts p.stereotypes ++ .texts p.tags

def ofJson? (j : Json) : Option Profile := do
  let r ← Record.ofJson? ["stereotypes", "tags"] j
  return { stereotypes := ← r.texts "stereotypes", tags := ← r.texts "tags" }

def toJson (p : Profile) : Json :=
  Record.toJson (.listField "stereotypes" (p.stereotypes.map .str) ++
    .listField "tags" (p.tags.map .str))

end Profile

structure Stereotype where
  profile : Reference .profile
  name : String
  deriving DecidableEq, Repr

namespace Stereotype

def hashInput (s : Stereotype) : HashInput :=
  .tag .stereotype ++ .text s.profile.path.text ++ .text s.name

def digest (s : Stereotype) : Digest := s.hashInput.digest

def ofJson? (j : Json) : Option Stereotype := do
  let r ← Record.ofJson? ["profile", "value"] j
  return ⟨← r.required "profile" Reference.ofJson?, ← r.text "value"⟩

def toJson (names : Naming) (s : Stereotype) : Json :=
  Record.toJson (.field "profile" (s.profile.toJson names) ++ .field "value" (.str s.name))

end Stereotype

/-- A tag of a profile, put on an item with a value. -/
structure TaggedValue where
  profile : Reference .profile
  tag : String
  value : String
  deriving DecidableEq, Repr

namespace TaggedValue

def hashInput (t : TaggedValue) : HashInput :=
  .tag .taggedValue ++ .text t.profile.path.text ++ .text t.tag ++ .text t.value

def digest (t : TaggedValue) : Digest := t.hashInput.digest

def ofJson? (j : Json) : Option TaggedValue := do
  let r ← Record.ofJson? ["tag", "value"] j
  let (profile, tag) ← r.required "tag" fun j => do
    let r ← Record.ofJson? ["profile", "value"] j
    return (← r.required "profile" Reference.ofJson?, ← r.text "value")
  return ⟨profile, tag, ← r.text "value"⟩

def toJson (names : Naming) (t : TaggedValue) : Json :=
  let tag :=
    Record.toJson (.field "profile" (t.profile.toJson names) ++ .field "value" (.str t.tag))
  Record.toJson (.field "tag" tag ++ .field "value" (.str t.value))

end TaggedValue

/-- The stereotypes and tagged values of an item. -/
structure Annotations where
  stereotypes : List Stereotype := []
  taggedValues : List TaggedValue := []
  deriving DecidableEq, Repr, Inhabited

namespace Annotations

def addStereotype (s : Stereotype) (a : Annotations) : Annotations :=
  { a with stereotypes := a.stereotypes ++ [s] }

def addTaggedValue (t : TaggedValue) (a : Annotations) : Annotations :=
  { a with taggedValues := a.taggedValues ++ [t] }

def deleteStereotype (index : Nat) (a : Annotations) : Annotations :=
  { a with stereotypes := a.stereotypes.eraseIdx index }

def deleteTaggedValue (index : Nat) (a : Annotations) : Annotations :=
  { a with taggedValues := a.taggedValues.eraseIdx index }

def links (a : Annotations) : List Link :=
  a.stereotypes.map (·.profile.link) ++ a.taggedValues.map (·.profile.link)

def rebind (f : Rebinding) (a : Annotations) : Annotations where
  stereotypes := a.stereotypes.map fun s => { s with profile := f _ s.profile }
  taggedValues := a.taggedValues.map fun t => { t with profile := f _ t.profile }

def hashInput (a : Annotations) : HashInput :=
  .codes (a.stereotypes.map Stereotype.digest) ++ .codes (a.taggedValues.map TaggedValue.digest)

def ofRecord? (r : Record) : Option Annotations := do
  return {
    stereotypes := ← r.list "stereotypes" Stereotype.ofJson?
    taggedValues := ← r.list "taggedValues" TaggedValue.ofJson? }

def record (names : Naming) (a : Annotations) : Record :=
  .listField "stereotypes" (a.stereotypes.map (·.toJson names)) ++
    .listField "taggedValues" (a.taggedValues.map (·.toJson names))

end Annotations
end ModelGraph
