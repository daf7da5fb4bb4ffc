import ModelGraph.Json.Basic

/-!
Reading JSON text. The members of an object stay in the order and number in which they are written;
`Json.normal` sorts them. Containers nest to a bounded depth.
-/

namespace ModelGraph.Json

/-- A step of reading: a value and the text after it. -/
abbrev Step (α : Type) := List Char → Option (α × List Char)

def skipBlanks : List Char → List Char
  | c :: rest => if c = ' ' || c = '\n' || c = '\t' || c = '\r' then skipBlanks rest else c :: rest
  | [] => []

def hexValue? (c : Char) : Option Nat :=
  if '0' ≤ c && c ≤ '9' then some (c.toNat - 48)
  else if 'a' ≤ c && c ≤ 'f' then some (c.toNat - 87)
  else if 'A' ≤ c && c ≤ 'F' then some (c.toNat - 55)
  else none

def unit? (a b c d : Char) : Option Nat := do
  let a ← hexValue? a
  let b ← hexValue? b
  let c ← hexValue? c
  let d ← hexValue? d
  return ((a * 16 + b) * 16 + c) * 16 + d

def simpleEscape? (c : Char) : Option Char :=
  match c with
  | '"' => some '"'
  | '\\' => some '\\'
  | '/' => some '/'
  | 'b' => some (Char.ofNat 8)
  | 'f' => some (Char.ofNat 12)
  | 'n' => some '\n'
  | 'r' => some '\r'
  | 't' => some '\t'
  | _ => none

def isHighSurrogate (n : Nat) : Bool := 0xD800 ≤ n && n ≤ 0xDBFF

def isLowSurrogate (n : Nat) : Bool := 0xDC00 ≤ n && n ≤ 0xDFFF

/-- The rest of a string after its opening quote. Characters below U+0020 and surrogates that are
not a pair are refused. -/
def string : Step (List Char)
  | [] => none
  | '"' :: rest => some ([], rest)
  | '\\' :: 'u' :: a :: b :: c :: d :: rest =>
    match unit? a b c d with
    | none => none
    | some n =>
      if isHighSurrogate n then
        match rest with
        | '\\' :: 'u' :: e :: f :: g :: h :: rest =>
          match unit? e f g h with
          | none => none
          | some m =>
            if isLowSurrogate m then
              (string rest).map fun (s, rest) =>
                (Char.ofNat (0x10000 + (n - 0xD800) * 0x400 + (m - 0xDC00)) :: s, rest)
            else none
        | _ => none
      else if isLowSurrogate n then none
      else (string rest).map fun (s, rest) => (Char.ofNat n :: s, rest)
  | '\\' :: c :: rest =>
    match simpleEscape? c with
    | some e => (string rest).map fun (s, rest) => (e :: s, rest)
    | none => none
  | c :: rest =>
    if c.toNat < 0x20 || c = '\\' then none else (string rest).map fun (s, rest) => (c :: s, rest)

def digitValue (c : Char) : Nat := c.toNat - 48

/-- Appends digits to a significand as long as it stays within sixty-four bits. -/
def accumulate : Nat → List Char → Nat × List Char
  | n, [] => (n, [])
  | n, c :: rest =>
    if c.isDigit && n * 10 + digitValue c < Nat.pow 2 64 then accumulate (n * 10 + digitValue c) rest
    else (n, c :: rest)

def digitsValue (s : List Char) : Nat := s.foldl (fun n c => n * 10 + digitValue c) 0

/-- The exponent mark with its digits, if there is one; a mark without digits is refused. -/
def exponentPart (s : List Char) : Option (Option Int × List Char) :=
  match s with
  | c :: rest =>
    if c = 'e' || c = 'E' then
      let (negative, rest) :=
        match rest with
        | '+' :: rest => (false, rest)
        | '-' :: rest => (true, rest)
        | rest => (false, rest)
      let digits := rest.takeWhile Char.isDigit
      if digits.isEmpty then none
      else
        let n : Int := digitsValue digits
        some (some (if negative then -n else n), rest.drop digits.length)
    else some (none, s)
  | [] => some (none, s)

/-- The digits after a point, if there is one, appended to the significand: the significand, how
much the exponent falls, and whether there was a point. A point without digits is refused. -/
def fractionPart (n : Nat) (s : List Char) : Option (Nat × Nat × Bool × List Char) :=
  match s with
  | '.' :: rest =>
    let digits := rest.takeWhile Char.isDigit
    if digits.isEmpty then none
    else
      let (m, unread) := accumulate n digits
      some (m, digits.length - unread.length, true, rest.drop digits.length)
  | s => some (n, 0, false, s)

/-- A number after its sign. The significand keeps as many leading digits as sixty-four bits hold;
later digits before the point count in the exponent and those after it are dropped. A literal with
neither point nor exponent that fits is an integer. -/
def unsigned (negative : Bool) (s : List Char) : Option (JsonNumber × List Char) :=
  let digits := s.takeWhile Char.isDigit
  if digits.isEmpty then none
  else if digits.length > 1 && digits.head? = some '0' then none
  else do
    let (whole, unread) := accumulate 0 digits
    let (n, fall, point, rest) ← fractionPart whole (s.drop digits.length)
    let (power, rest) ← exponentPart rest
    let plain := !point && power.isNone && unread.isEmpty
    if plain && (!negative || (n ≠ 0 && n ≤ Nat.pow 2 63)) then
      return (.int (if negative then -(n : Int) else n), rest)
    else
      let d ← Double.ofDecimal? negative n (unread.length - fall + power.getD 0)
      return (.double d, rest)

def number : Step JsonNumber
  | '-' :: rest => unsigned true rest
  | s => unsigned false s

/-- Items separated by commas up to `close`; `fuel` bounds their number. -/
def sequence {α : Type} (item : Step α) (close : Char) : Nat → Step (List α)
  | 0, _ => none
  | fuel + 1, s => do
    let (x, rest) ← item s
    match skipBlanks rest with
    | c :: rest =>
      if c = ',' then
        let (xs, rest) ← sequence item close fuel rest
        return (x :: xs, rest)
      else if c = close then return ([x], rest)
      else none
    | [] => none

def container {α : Type} (item : Step α) (close : Char) (s : List Char) :
    Option (List α × List Char) :=
  match skipBlanks s with
  | c :: rest =>
    if c = close then some ([], rest)
    else sequence item close (c :: rest).length (c :: rest)
  | [] => none

def memberStep (value : Step Json) : Step (String × Json) := fun s =>
  match skipBlanks s with
  | '"' :: rest => do
    let (key, rest) ← string rest
    match skipBlanks rest with
    | ':' :: rest =>
      let (v, rest) ← value rest
      return ((String.ofList key, v), rest)
    | _ => none
  | _ => none

/-- A scalar: the value at `s`, which holds no blanks in front. -/
def scalar (s : List Char) : Option (Json × List Char) :=
  match s with
  | 'n' :: 'u' :: 'l' :: 'l' :: rest => some (.null, rest)
  | 't' :: 'r' :: 'u' :: 'e' :: rest => some (.bool true, rest)
  | 'f' :: 'a' :: 'l' :: 's' :: 'e' :: rest => some (.bool false, rest)
  | '"' :: rest => (string rest).map fun (s, rest) => (.str (String.ofList s), rest)
  | s => (number s).map fun (n, rest) => (.num n, rest)

def value : Nat → Step Json
  | 0, s =>
    match skipBlanks s with
    | '[' :: _ => none
    | '{' :: _ => none
    | s => scalar s
  | depth + 1, s =>
    match skipBlanks s with
    | '[' :: rest => (container (value depth) ']' rest).map fun (items, rest) => (.arr items, rest)
    | '{' :: rest =>
      (container (memberStep (value depth)) '}' rest).map fun (members, rest) =>
        (.obj members, rest)
    | s => scalar s

def depthLimit : Nat := 127

def parse? (text : String) : Option Json :=
  match value depthLimit text.toList with
  | some (j, rest) => if (skipBlanks rest).isEmpty then some j else none
  | none => none

end ModelGraph.Json
