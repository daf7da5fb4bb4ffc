import ModelGraph.Number.Double

/-!
JSON values.

An object is a list of members. A value is in *normal order* when the members of each of its objects
are sorted by key, each key once; `Json.object` and `Json.normal` produce such values, a reader of
text keeps the members as they are written.
-/

namespace ModelGraph

/-- A number: an integer literal within sixty-four bits, or a double. -/
inductive JsonNumber where
  | int (n : Int)
  | double (d : Double)
  deriving DecidableEq, Repr

inductive Json where
  | null
  | bool (b : Bool)
  | num (n : JsonNumber)
  | str (s : String)
  | arr (items : List Json)
  | obj (members : List (String × Json))
  deriving Repr, Inhabited

/-- Integers and doubles are never equal; of two doubles the value decides. -/
def JsonNumber.agrees : JsonNumber → JsonNumber → Bool
  | .int a, .int b => a == b
  | .double a, .double b => a.agrees b
  | _, _ => false

namespace Json

def isNull : Json → Bool
  | .null => true
  | _ => false

def isObject : Json → Bool
  | .obj _ => true
  | _ => false

def text? : Json → Option String
  | .str s => some s
  | _ => none

def bool? : Json → Option Bool
  | .bool b => some b
  | _ => none

def int? : Json → Option Int
  | .num (.int n) => some n
  | _ => none

def items? : Json → Option (List Json)
  | .arr items => some items
  | _ => none

def double? : Json → Option Double
  | .num (.double d) => some d
  | .num (.int n) => Double.ofInt? n
  | _ => none

def intBetween? (low high : Int) (j : Json) : Option Int :=
  j.int?.filter fun n => low ≤ n && n ≤ high

def nat32? (j : Json) : Option Nat := (j.intBetween? 0 (Nat.pow 2 32 - 1 : Nat)).map Int.toNat

def nat64? (j : Json) : Option Nat := (j.intBetween? 0 (Nat.pow 2 64 - 1 : Nat)).map Int.toNat

def int64? (j : Json) : Option Int := j.intBetween? (-(Nat.pow 2 63 : Nat)) (Nat.pow 2 63 - 1 : Nat)

def list? {α : Type} (read : Json → Option α) (j : Json) : Option (List α) :=
  j.items?.bind fun items => items.mapM read

def member? (key : String) : Json → Option Json
  | .obj members => members.lookup key
  | _ => none

/-- An object without the members of the given keys; other values stay as they are. -/
def without (keys : List String) : Json → Json
  | .obj members => .obj (members.filter fun m => !keys.contains m.1)
  | j => j

def ofNat (n : Nat) : Json := .num (.int n)

def ofOption {α : Type} (write : α → Json) : Option α → Json
  | some a => write a
  | none => .null

def ofList {α : Type} (write : α → Json) (items : List α) : Json := .arr (items.map write)

def texts (items : List String) : Json := .arr (items.map .str)

/-- Puts a member at its place in a sorted list; an equal key takes the new value. -/
def insertMember (key : String) (value : Json) : List (String × Json) → List (String × Json)
  | [] => [(key, value)]
  | (k, v) :: rest =>
    if key < k then (key, value) :: (k, v) :: rest
    else if key = k then (key, value) :: rest
    else (k, v) :: insertMember key value rest

def sortMembers (members : List (String × Json)) : List (String × Json) :=
  members.foldl (fun sorted m => insertMember m.1 m.2 sorted) []

/-- The object with the given members in normal order, the last of equal keys winning. -/
def object (members : List (String × Json)) : Json := .obj (sortMembers members)

mutual

def normal : Json → Json
  | .arr items => .arr (normalItems items)
  | .obj members => object (normalMembers members)
  | .null => .null
  | .bool b => .bool b
  | .num n => .num n
  | .str s => .str s

def normalItems : List Json → List Json
  | [] => []
  | j :: rest => j.normal :: normalItems rest

def normalMembers : List (String × Json) → List (String × Json)
  | [] => []
  | (k, v) :: rest => (k, v.normal) :: normalMembers rest

end

mutual

def agrees : Json → Json → Bool
  | .null, .null => true
  | .bool a, .bool b => a == b
  | .num a, .num b => a.agrees b
  | .str a, .str b => a == b
  | .arr a, .arr b => agreeItems a b
  | .obj a, .obj b => agreeMembers a b
  | _, _ => false

def agreeItems : List Json → List Json → Bool
  | [], [] => true
  | a :: as, b :: bs => a.agrees b && agreeItems as bs
  | _, _ => false

def agreeMembers : List (String × Json) → List (String × Json) → Bool
  | [], [] => true
  | (k, a) :: as, (l, b) :: bs => k == l && a.agrees b && agreeMembers as bs
  | _, _ => false

end

end Json
end ModelGraph
