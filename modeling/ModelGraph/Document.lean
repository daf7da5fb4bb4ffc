import ModelGraph.Json.Basic

/-!
Object documents with fixed members.

A document is an object whose members are known by name, or an array of its members in order with
members left out only at the end. `Record` holds the members that are there. A tagged document names
its variant in the member `_type`, or in the first item of the array form.
-/

namespace ModelGraph

abbrev Record := List (String × Json)

namespace Record

/-- The members of a document that may have the given members, in their order. Other members and too
many items are refused. -/
def ofJson? (names : List String) : Json → Option Record
  | .obj members => if members.all fun m => names.contains m.1 then some members else none
  | .arr items => if items.length ≤ names.length then some (names.zip items) else none
  | _ => none

variable {α : Type}

def required (r : Record) (name : String) (read : Json → Option α) : Option α :=
  (r.lookup name).bind read

def withDefault (r : Record) (name : String) (value : α) (read : Json → Option α) : Option α :=
  match r.lookup name with
  | some j => read j
  | none => some value

def list (r : Record) (name : String) (read : Json → Option α) : Option (List α) :=
  r.withDefault name [] (Json.list? read)

def optional (r : Record) (name : String) (read : Json → Option α) : Option (Option α) :=
  r.withDefault name none fun j => if j.isNull then some none else (read j).map some

def text (r : Record) (name : String) : Option String := r.required name Json.text?

def optText (r : Record) (name : String) : Option (Option String) := r.optional name Json.text?

def texts (r : Record) (name : String) : Option (List String) := r.list name Json.text?

def flag (r : Record) (name : String) : Option Bool := r.withDefault name false Json.bool?

def value (r : Record) (name : String) : Json := (r.lookup name).getD .null

def requiredValue (r : Record) (name : String) : Option Json := r.lookup name

def field (name : String) (j : Json) : Record := [(name, j)]

def listField (name : String) (items : List Json) : Record :=
  if items.isEmpty then [] else [(name, .arr items)]

def optField (name : String) (j : Option Json) : Record :=
  match j with
  | some j => [(name, j)]
  | none => []

def valueField (name : String) (j : Json) : Record := if j.isNull then [] else [(name, j)]

def toJson (r : Record) : Json := Json.object r

def tagged (tag : String) (r : Record) : Json := Json.object (("_type", .str tag) :: r)

end Record

namespace Json

/-- The variant a tag stands for. Inside another tagged document a tag may also be a position. -/
def variant? (tags : List String) (nested : Bool) : Json → Option String
  | .str s => if tags.contains s then some s else none
  | .num (.int n) => if nested && 0 ≤ n then tags[n.toNat]? else none
  | _ => none

/-- The variant of a tagged document and the document without its tag. -/
def tagged? (tags : List String) (nested : Bool) : Json → Option (String × Json)
  | .obj members => do
    let tag ← members.lookup "_type"
    let tag ← variant? tags nested tag
    return (tag, .obj (members.filter fun m => m.1 != "_type"))
  | .arr (tag :: items) => do
    let tag ← variant? tags nested tag
    return (tag, .arr items)
  | _ => none

/-- A name among several: a text, or an object whose one member has that name and no value. The
value is null, or an empty object where `loose` holds. -/
def choice? (names : List String) (loose : Bool) : Json → Option String
  | .str s => if names.contains s then some s else none
  | .obj [(s, .null)] => if names.contains s then some s else none
  | .obj [(s, .obj [])] => if loose && names.contains s then some s else none
  | _ => none

mutual

def depth : Json → Nat
  | .arr items => depthItems items + 1
  | .obj members => depthMembers members + 1
  | .null => 0
  | .bool _ => 0
  | .num _ => 0
  | .str _ => 0

def depthItems : List Json → Nat
  | [] => 0
  | j :: rest => max j.depth (depthItems rest)

def depthMembers : List (String × Json) → Nat
  | [] => 0
  | (_, v) :: rest => max v.depth (depthMembers rest)

end

end Json
end ModelGraph
