import ModelGraph.Number.Shortest

/-!
TOML values, and how tables grow while a document is read.

A table comes to be under a header of its own, on the way to the table of another header, by a
dotted key, or inline, and this decides what may be added to it later: a header may open a table
that so far was only on the way to others, a dotted key may go on with a table that has no header,
and an inline table is complete.
-/

namespace ModelGraph.Toml

/-- How a table came to be; the document itself counts as a table with a header. -/
inductive Origin where
  | header
  | ancestor
  | dotted
  | inline
  deriving DecidableEq, Repr

inductive Value where
  | text (s : String)
  | bool (b : Bool)
  | integer (n : Int)
  | float (negative : Bool) (magnitude : Decimal)
  | infinite (negative : Bool)
  | nan
  /-- A date, a time or both, as they are written. -/
  | datetime (literal : String)
  | array (items : List Value)
  /-- An array of tables, each opened by a header; only the last of them can still grow. -/
  | tables (former : List Value) (last : List (String × Value))
  | table (origin : Origin) (members : List (String × Value))
  deriving Repr

abbrev Members := List (String × Value)

namespace Value

def text? : Value → Option String
  | .text s => some s
  | _ => none

def bool? : Value → Option Bool
  | .bool b => some b
  | _ => none

def items? : Value → Option (List Value)
  | .array items => some items
  | .tables former last => some (former ++ [.table .header last])
  | _ => none

/-- A decimal that does not round to infinity when it is read as a double. -/
def isFinite (d : Decimal) : Bool :=
  let top : Int := d.leadingExponent
  d.digits = 0 || top < 308 ||
    (top = 308 && (Double.nearest? (d.digits * Nat.pow 10 d.scale.toNat) (Nat.pow 10 (-d.scale).toNat)).isSome)

mutual

/-- The numbers in a value are within range: integers within a hundred and twenty-eight bits, floats
within doubles. -/
def inRange : Value → Bool
  | .integer n => -(Nat.pow 2 127 : Int) ≤ n && n < (Nat.pow 2 128 : Int)
  | .float _ d => isFinite d
  | .array items => allInRange items
  | .tables former last => allInRange former && membersInRange last
  | .table _ members => membersInRange members
  | .text _ => true
  | .bool _ => true
  | .infinite _ => true
  | .nan => true
  | .datetime _ => true

def allInRange : List Value → Bool
  | [] => true
  | v :: rest => v.inRange && allInRange rest

def membersInRange : List (String × Value) → Bool
  | [] => true
  | (_, v) :: rest => v.inRange && membersInRange rest

end

end Value

/-- A change to the members of a table, which may be refused. -/
abbrev Edit := Origin → Members → Option Members

def setMember (key : String) (v : Value) (members : Members) : Members :=
  members.map fun m => if m.1 = key then (key, v) else m

/-- Makes a change to the table at a path, which leads through the last one of an array of tables. A
table that is missing on the way is made. A path of a dotted key can't go through a table with a
header, and no path goes through an inline table. -/
def editAt (isDotted : Bool) (edit : Edit) : List String → Edit
  | [], origin, members => edit origin members
  | key :: path, _, members =>
    match members.lookup key with
    | none =>
      let origin := if isDotted then Origin.dotted else .ancestor
      (editAt isDotted edit path origin []).map fun inner => members ++ [(key, .table origin inner)]
    | some (.table origin inner) =>
      if origin = .inline || (isDotted && origin = .header) then none
      else
        (editAt isDotted edit path origin inner).map fun inner =>
          setMember key (.table origin inner) members
    | some (.tables former last) =>
      (editAt isDotted edit path .header last).map fun last =>
        setMember key (.tables former last) members
    | some _ => none

/-- Sets a key below a path of dotted keys, which must not end in a table with a header. A key is
set once. -/
def assign (path : List String) (key : String) (v : Value) : Edit :=
  editAt true (fun origin members =>
    if (!path.isEmpty && origin = .header) || members.any (·.1 == key) then none
    else some (members ++ [(key, v)])) path

/-- Opens the table of a header, which may be there only on the way to others. -/
def openTable (path : List String) (key : String) : Edit :=
  editAt false (fun _ members =>
    match members.lookup key with
    | none => some (members ++ [(key, .table .header [])])
    | some (.table .ancestor inner) => some (setMember key (.table .header inner) members)
    | some _ => none) path

def addTable (path : List String) (key : String) : Edit :=
  editAt false (fun _ members =>
    match members.lookup key with
    | none => some (members ++ [(key, .tables [] [])])
    | some (.tables former last) =>
      some (setMember key (.tables (former ++ [.table .header last]) []) members)
    | some _ => none) path

end ModelGraph.Toml
