import ModelGraph.Toml.Quoted
import ModelGraph.Toml.Scalar

namespace ModelGraph.Toml

open Json (Step)

/-- How deep arrays and inline tables may nest, and how many keys may be joined by points. -/
def depthLimit : Nat := 80

/-- Skips blanks, line breaks and comments, up to the first character that is none of these. -/
def skipTrivia : (inComment : Bool) → List Char → List Char
  | _, '\r' :: '\n' :: rest => skipTrivia false rest
  | inComment, c :: rest =>
    if c = '\n' then skipTrivia false rest
    else if inComment then if isControl c then c :: rest else skipTrivia true rest
    else if c = '#' then skipTrivia true rest
    else if isSpace c then skipTrivia false rest
    else c :: rest
  | _, [] => []

/-- The text after a line that holds nothing more than blanks and a comment. -/
def lineEnd (s : List Char) : Option (List Char) :=
  let s := skipSpace s
  match if s.head? = some '#' then s.dropWhile (fun c => !isControl c) else s with
  | [] => some []
  | s => lineBreak? s

def isKeyChar (c : Char) : Bool := c.isAlphanum || c = '-' || c = '_'

def simpleKey (s : List Char) : Option (String × List Char) :=
  if s.head? = some '"' || s.head? = some '\'' then lineText s
  else
    let key := s.takeWhile isKeyChar
    if key.isEmpty then none else some (String.ofList key, s.drop key.length)

/-- Keys joined by points, the last one apart, and the blanks around them; `fuel` bounds their
number. -/
def keys : (fuel : Nat) → Step (List String × String)
  | 0, _ => none
  | fuel + 1, s => do
    let (key, rest) ← simpleKey (skipSpace s)
    match skipSpace rest with
    | '.' :: rest =>
      let ((path, last), rest) ← keys fuel rest
      return ((key :: path, last), rest)
    | rest => return (([], key), rest)

/-- Items separated by commas up to the closing bracket; the last one may have a comma too. -/
def arrayItems (item : Step Value) : (fuel : Nat) → Step (List Value)
  | 0, _ => none
  | fuel + 1, s =>
    match skipTrivia false s with
    | ']' :: rest => some ([], rest)
    | s => do
      let (v, rest) ← item s
      match skipTrivia false rest with
      | ',' :: rest =>
        let (vs, rest) ← arrayItems item fuel rest
        return (v :: vs, rest)
      | ']' :: rest => return ([v], rest)
      | _ => none

/-- Members separated by commas up to the closing brace; the last one may have a comma too. -/
def inlineMembers (item : Step Value) : (fuel : Nat) → Members → Step Members
  | 0, _, _ => none
  | fuel + 1, members, s =>
    match skipTrivia false s with
    | '\x7d' :: rest => some (members, rest)
    | s => do
      let ((path, key), rest) ← keys depthLimit s
      match skipTrivia false rest with
      | '=' :: rest =>
        let (v, rest) ← item (skipTrivia false rest)
        let members ← assign path key v .inline members
        match skipTrivia false rest with
        | ',' :: rest => inlineMembers item fuel members rest
        | '\x7d' :: rest => return (members, rest)
        | _ => none
      | _ => none

def scalar (s : List Char) : Option (Value × List Char) :=
  if s.head? = some '"' || s.head? = some '\'' then
    (quoted s).map fun (s, rest) => (.text s, rest)
  else bare s

def value : (depth : Nat) → Step Value
  | 0, s => scalar s
  | depth + 1, s =>
    match s with
    | '[' :: rest =>
      (arrayItems (value depth) (rest.length + 1) rest).map fun (items, rest) =>
        (.array items, rest)
    | '\x7b' :: rest =>
      (inlineMembers (value depth) (rest.length + 1) [] rest).map fun (members, rest) =>
        (.table .inline members, rest)
    | s => scalar s

/-- A document in reading: its members, and the path of the table that is open. -/
structure Reading where
  members : Members := []
  table : List String := []

def header (r : Reading) (s : List Char) : Option (Reading × List Char) :=
  match s with
  | '[' :: s => do
    let ((path, key), ']' :: ']' :: rest) ← keys depthLimit s | none
    let members ← addTable path key .header r.members
    return ({ members, table := path ++ [key] }, ← lineEnd rest)
  | s => do
    let ((path, key), ']' :: rest) ← keys depthLimit s | none
    let members ← openTable path key .header r.members
    return ({ members, table := path ++ [key] }, ← lineEnd rest)

def assignment (r : Reading) (s : List Char) : Option (Reading × List Char) := do
  let ((path, key), '=' :: rest) ← keys depthLimit s | none
  let (v, rest) ← value depthLimit (skipSpace rest)
  let members ← editAt false (assign path key v) r.table .header r.members
  return ({ r with members }, ← lineEnd rest)

/-- The lines of a document; `fuel` bounds their number. -/
def lines : (fuel : Nat) → Reading → List Char → Option Reading
  | 0, _, _ => none
  | fuel + 1, r, s =>
    match skipTrivia false s with
    | [] => some r
    | '[' :: rest => do
      let (r, rest) ← header r rest
      lines fuel r rest
    | s => do
      let (r, rest) ← assignment r s
      lines fuel r rest

/-- The table that a document denotes. A byte order mark may stand in front. -/
def parse? (text : String) : Option Value :=
  let s := text.toList
  let s := if s.head? = some '\ufeff' then s.drop 1 else s
  (lines (s.length + 1) {} s).map fun r => .table .header r.members

end ModelGraph.Toml
