import ModelGraph.Json.Basic
import ModelGraph.Number.Shortest

namespace ModelGraph

def Json.hexDigit (n : Nat) : Char := Nat.digitChar (n % 16)

/-- A quote, a backslash and the characters below U+0020 are escaped, others stand as they are. -/
def Json.escaped (c : Char) : List Char :=
  if c = '"' then ['\\', '"']
  else if c = '\\' then ['\\', '\\']
  else if c = '\n' then ['\\', 'n']
  else if c = '\r' then ['\\', 'r']
  else if c = '\t' then ['\\', 't']
  else if c.toNat = 8 then ['\\', 'b']
  else if c.toNat = 12 then ['\\', 'f']
  else if c.toNat < 0x20 then ['\\', 'u', '0', '0', hexDigit (c.toNat / 16), hexDigit c.toNat]
  else [c]

def Json.quoted (s : String) : List Char := '"' :: (s.toList.flatMap escaped ++ ['"'])

def Json.intChars (n : Int) : List Char :=
  if n < 0 then '-' :: Nat.toDigits 10 n.natAbs else Nat.toDigits 10 n.natAbs

def JsonNumber.chars : JsonNumber → List Char
  | .int n => Json.intChars n
  | .double d => d.chars

namespace Json

mutual

def chars : Json → List Char
  | .null => "null".toList
  | .bool true => "true".toList
  | .bool false => "false".toList
  | .num n => n.chars
  | .str s => quoted s
  | .arr items => '[' :: (itemChars items ++ [']'])
  | .obj members => '{' :: (memberChars members ++ ['}'])

def itemChars : List Json → List Char
  | [] => []
  | [j] => j.chars
  | j :: rest => j.chars ++ ',' :: itemChars rest

def memberChars : List (String × Json) → List Char
  | [] => []
  | [(k, v)] => quoted k ++ ':' :: v.chars
  | (k, v) :: rest => quoted k ++ ':' :: (v.chars ++ ',' :: memberChars rest)

end

def compact (j : Json) : String := String.ofList j.chars

def newline (level : Nat) : List Char := '\n' :: List.replicate (2 * level) ' '

mutual

def indented (level : Nat) : Json → List Char
  | .null => "null".toList
  | .bool true => "true".toList
  | .bool false => "false".toList
  | .num n => n.chars
  | .str s => quoted s
  | .arr [] => ['[', ']']
  | .arr (j :: rest) => '[' :: (indentedItems level (j :: rest) ++ newline level ++ [']'])
  | .obj [] => ['{', '}']
  | .obj (m :: rest) => '{' :: (indentedMembers level (m :: rest) ++ newline level ++ ['}'])

def indentedItems (level : Nat) : List Json → List Char
  | [] => []
  | [j] => newline (level + 1) ++ indented (level + 1) j
  | j :: rest => newline (level + 1) ++ indented (level + 1) j ++ ',' :: indentedItems level rest

def indentedMembers (level : Nat) : List (String × Json) → List Char
  | [] => []
  | [(k, v)] => newline (level + 1) ++ quoted k ++ ':' :: ' ' :: indented (level + 1) v
  | (k, v) :: rest =>
    newline (level + 1) ++ quoted k ++
      ':' :: ' ' :: (indented (level + 1) v ++ ',' :: indentedMembers level rest)

end

def pretty (j : Json) : String := String.ofList (indented 0 j)

end Json
end ModelGraph
