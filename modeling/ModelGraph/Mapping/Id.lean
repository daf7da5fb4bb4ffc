import ModelGraph.Reference

namespace ModelGraph

/-- The id of a class mapping or enumeration mapping: written, or formed from the path of what is
mapped. -/
structure MappingId where
  value : String
  isInferred : Bool
  deriving DecidableEq, Repr

namespace MappingId

def explicit (value : String) : MappingId := ⟨value, false⟩

/-- The id formed from a path: `model::Person` gives `model_Person`. -/
def inferred (path : Path) : MappingId := ⟨path.flattened, true⟩

def ofOption (id : Option String) (path : Path) : MappingId :=
  match id with
  | some id => explicit id
  | none => inferred path

def written (id : MappingId) : Option String := if id.isInferred then none else some id.value

end MappingId

/-- A set implementation by its mapping and its slot in it. -/
structure SetHandle where
  mapping : Handle
  index : Nat
  deriving DecidableEq, Repr

/-- An enumeration mapping by its mapping and its position in it. -/
structure EnumerationMappingHandle where
  mapping : Handle
  index : Nat
  deriving DecidableEq, Repr

end ModelGraph
