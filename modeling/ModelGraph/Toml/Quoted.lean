import ModelGraph.Json.Reader

/-!
TOML texts in quotes. Basic texts have escapes, literal texts don't. A text between three quotes on
either side may run over several lines; a line break right after the opening quotes is dropped, and
up to two more quotes before the closing ones belong to the text.
-/

namespace ModelGraph.Toml

open Json (Step)

def isSpace (c : Char) : Bool := c = ' ' || c = '\t'

def skipSpace (s : List Char) : List Char := s.dropWhile isSpace

def isControl (c : Char) : Bool := (c.toNat < 0x20 && c ≠ '\t') || c.toNat = 0x7F

/-- A character by its number, which may be that of no surrogate. -/
def scalar? (n : Nat) : Option Char := if h : n.isValidChar then some (Char.ofNatAux n h) else none

def escape : Step Char
  | 'x' :: a :: b :: rest => do return (← scalar? (← Json.unit? '0' '0' a b), rest)
  | 'u' :: a :: b :: c :: d :: rest => do return (← scalar? (← Json.unit? a b c d), rest)
  | 'U' :: a :: b :: c :: d :: e :: f :: g :: h :: rest => do
    return (← scalar? ((← Json.unit? a b c d) * 0x10000 + (← Json.unit? e f g h)), rest)
  | 'e' :: rest => some (Char.ofNat 27, rest)
  | c :: rest => if c = '/' then none else (Json.simpleEscape? c).map fun x => (x, rest)
  | [] => none

def lineBreak? : List Char → Option (List Char)
  | '\n' :: rest => some rest
  | '\r' :: '\n' :: rest => some rest
  | _ => none

def skipBlankLines : List Char → List Char
  | '\r' :: '\n' :: rest => skipBlankLines rest
  | c :: rest => if isSpace c || c = '\n' then skipBlankLines rest else c :: rest
  | [] => []

/-- The rest of a text on one line after its opening quote; `fuel` bounds its length. -/
def oneLine (quote : Char) (escapes : Bool) : (fuel : Nat) → Step (List Char)
  | 0, _ => none
  | _, [] => none
  | fuel + 1, c :: rest =>
    if c = quote then some ([], rest)
    else if isControl c then none
    else do
      let (x, rest) ← if escapes && c = '\\' then escape rest else some (c, rest)
      let (s, rest) ← oneLine quote escapes fuel rest
      return (x :: s, rest)

/-- The rest of a text of several lines. A backslash at the end of a line drops the line break and
the blanks and line breaks after it. -/
def manyLines (quote : Char) (escapes : Bool) : (fuel : Nat) → Step (List Char)
  | 0, _ => none
  | _, [] => none
  | fuel + 1, c :: rest =>
    if [quote, quote, quote].isPrefixOf (c :: rest) then
      let rest := rest.drop 2
      let more := (rest.take 2).takeWhile (· = quote)
      some (more, rest.drop more.length)
    else if escapes && c = '\\' && (lineBreak? (skipSpace rest)).isSome then
      manyLines quote escapes fuel (skipBlankLines rest)
    else
      match lineBreak? (c :: rest) with
      | some rest => (manyLines quote escapes fuel rest).map fun (s, rest) => ('\n' :: s, rest)
      | none =>
        if isControl c then none
        else do
          let (x, rest) ← if escapes && c = '\\' then escape rest else some (c, rest)
          let (s, rest) ← manyLines quote escapes fuel rest
          return (x :: s, rest)

def lineText : Step String
  | '"' :: rest =>
    (oneLine '"' true rest.length rest).map fun (s, rest) => (String.ofList s, rest)
  | '\'' :: rest =>
    (oneLine '\'' false rest.length rest).map fun (s, rest) => (String.ofList s, rest)
  | _ => none

def quoted (s : List Char) : Option (String × List Char) :=
  let many (quote : Char) (escapes : Bool) (rest : List Char) : Option (String × List Char) :=
    let rest := (lineBreak? rest).getD rest
    (manyLines quote escapes rest.length rest).map fun (s, rest) => (String.ofList s, rest)
  match s with
  | '"' :: '"' :: '"' :: rest => many '"' true rest
  | '\'' :: '\'' :: '\'' :: rest => many '\'' false rest
  | s => lineText s

end ModelGraph.Toml
