import ModelGraph.Text.Blank
import ModelGraph.Document

/-!
Column types: a name with a size, or with a precision and a scale. A database keeps the text of a
type, such as `Varchar(200)` or `Decimal(10,2)`; documents spell it out.
-/

namespace ModelGraph

structure ColumnType where
  name : String
  size : Option Nat := none
  precision : Option Nat := none
  scale : Option Nat := none
  deriving DecidableEq, Repr

namespace ColumnType

/-- The text of a type. A size hides precision and scale, and a scale shows only beside a
precision. -/
def text (t : ColumnType) : String :=
  match t.size, t.precision, t.scale with
  | some size, _, _ => t.name ++ "(" ++ toString size ++ ")"
  | none, some precision, some scale =>
    t.name ++ "(" ++ toString precision ++ "," ++ toString scale ++ ")"
  | none, some precision, none => t.name ++ "(" ++ toString precision ++ ")"
  | none, none, _ => t.name

/-- An unsigned number within sixty-four bits; a plus may stand in front. -/
def number? (s : List Char) : Option Nat :=
  let digits := match s with | '+' :: rest => rest | s => s
  if digits.isEmpty || !digits.all Char.isDigit then none
  else
    let n := digits.foldl (fun n c => n * 10 + (c.toNat - 48)) 0
    if n < Nat.pow 2 64 then some n else none

/-- The arguments between the parentheses: one is a size, two are precision and scale. Blanks around
an argument are ignored. -/
def ofArguments? (name : String) (arguments : List Char) : Option ColumnType := do
  let numbers ← (Text.splitAt ',' arguments).mapM fun a => number? (Text.trim a)
  match numbers with
  | [size] => return { name, size := some size }
  | [precision, scale] => return { name, precision := some precision, scale := some scale }
  | _ => none

/-- Reads the text of a type. What precedes the first parenthesis is the name, and the last
character must close it. -/
def ofText? (s : String) : Option ColumnType :=
  let chars := s.toList
  match chars.dropWhile (· ≠ '(') with
  | [] => some { name := s }
  | _ :: rest =>
    match rest.reverse with
    | ')' :: arguments =>
      ofArguments? (String.ofList (chars.takeWhile (· ≠ '('))) arguments.reverse
    | _ => none

def ofJson? (j : Json) : Option ColumnType := do
  let r ← Record.ofJson? ["_type", "size", "precision", "scale"] j
  return {
    name := ← r.text "_type"
    size := ← r.optional "size" Json.nat64?
    precision := ← r.optional "precision" Json.nat64?
    scale := ← r.optional "scale" Json.nat64? }

def toJson (t : ColumnType) : Json :=
  Record.toJson (.field "_type" (.str t.name) ++ .optField "size" (t.size.map .ofNat) ++
    .optField "precision" (t.precision.map .ofNat) ++ .optField "scale" (t.scale.map .ofNat))

end ColumnType
end ModelGraph
