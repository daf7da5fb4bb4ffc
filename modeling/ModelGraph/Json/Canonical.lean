import ModelGraph.Json.Basic

/-!
The canonical form of a document: no null members, no null items and no members that hold an empty
array. Documents of one model differ only in such members and items.
-/

namespace ModelGraph.Json

def isAbsent : Json → Bool
  | .null => true
  | .arr [] => true
  | _ => false

mutual

/-- The value without absent members and null items, at every depth. A member is judged again once
its own value is canonical. -/
def canonical : Json → Json
  | .arr items => .arr (canonicalItems items)
  | .obj members => .obj (canonicalMembers members)
  | .null => .null
  | .bool b => .bool b
  | .num n => .num n
  | .str s => .str s

def canonicalItems : List Json → List Json
  | [] => []
  | j :: rest => if j.isNull then canonicalItems rest else j.canonical :: canonicalItems rest

def canonicalMembers : List (String × Json) → List (String × Json)
  | [] => []
  | (k, v) :: rest =>
    if v.canonical.isAbsent then canonicalMembers rest
    else (k, v.canonical) :: canonicalMembers rest

end

end ModelGraph.Json
