import ModelGraph.Json.Reader
import ModelGraph.Toml.Value

namespace ModelGraph.Toml

open Json (Step)

/-- Digits without the underscores among them, each of which stands between two digits. -/
def digits? (isDigit : Char → Bool) : List Char → Option (List Char)
  | [] => none
  | [c] => if isDigit c then some [c] else none
  | c :: '_' :: rest => if isDigit c then (digits? isDigit rest).map (c :: ·) else none
  | c :: rest => if isDigit c then (digits? isDigit rest).map (c :: ·) else none

/-- The digits of a decimal integer; only zero itself starts with a zero. -/
def wholeDigits? (s : List Char) : Option (List Char) :=
  if s.head? = some '0' && s.length ≠ 1 then none else digits? Char.isDigit s

def radix? (radix : Nat) (s : List Char) : Option Value := do
  let digits ← digits? (fun c => (Json.hexValue? c).any (· < radix)) s
  let values ← digits.mapM Json.hexValue?
  return .integer (values.foldl (fun n d => n * radix + d) 0 : Nat)

def fraction? : List Char → Option (List Char × List Char)
  | '.' :: s =>
    let part := s.takeWhile fun c => c ≠ 'e' && c ≠ 'E'
    (digits? Char.isDigit part).map fun digits => (digits, s.drop part.length)
  | s => some ([], s)

def exponent? : List Char → Option Int
  | [] => some 0
  | mark :: s =>
    if mark = 'e' || mark = 'E' then
      match s with
      | '-' :: s => (digits? Char.isDigit s).map fun digits => -(Json.digitsValue digits : Int)
      | '+' :: s => (digits? Char.isDigit s).map fun digits => (Json.digitsValue digits : Int)
      | s => (digits? Char.isDigit s).map fun digits => (Json.digitsValue digits : Int)
    else none

def unsigned? (negative : Bool) (s : List Char) : Option Value :=
  if s = "inf".toList then some (.infinite negative)
  else if s = "nan".toList then some .nan
  else do
    let part := s.takeWhile fun c => c ≠ '.' && c ≠ 'e' && c ≠ 'E'
    let whole ← wholeDigits? part
    match s.drop part.length with
    | [] =>
      let n : Int := Json.digitsValue whole
      return .integer (if negative then -n else n)
    | rest =>
      let (fraction, rest) ← fraction? rest
      let power ← exponent? rest
      return .float negative ⟨Json.digitsValue (whole ++ fraction), power - fraction.length⟩

def number? : List Char → Option Value
  | '0' :: 'x' :: s => radix? 16 s
  | '0' :: 'o' :: s => radix? 8 s
  | '0' :: 'b' :: s => radix? 2 s
  | '+' :: s => unsigned? false s
  | '-' :: s => unsigned? true s
  | s => unsigned? false s

def fixed (count : Nat) : Step Nat := fun s =>
  let digits := s.take count
  if digits.length = count && digits.all Char.isDigit then
    some (Json.digitsValue digits, s.drop count)
  else none

def isLeap (year : Nat) : Bool := year % 4 = 0 && (year % 100 ≠ 0 || year % 400 = 0)

def daysIn (year month : Nat) : Nat :=
  if month = 2 then if isLeap year then 29 else 28
  else if month = 4 || month = 6 || month = 9 || month = 11 then 30
  else 31

def afterDate (s : List Char) : Option (List Char) := do
  let (year, '-' :: s) ← fixed 4 s | none
  let (month, '-' :: s) ← fixed 2 s | none
  let (day, s) ← fixed 2 s
  if 1 ≤ month && month ≤ 12 && 1 ≤ day && day ≤ daysIn year month then some s else none

def afterFraction (s : List Char) : Option (List Char) :=
  match s with
  | '.' :: s =>
    let digits := s.takeWhile Char.isDigit
    if digits.isEmpty then none else some (s.drop digits.length)
  | s => some s

/-- The text after a time. Seconds may be left out, and there may be a leap second. -/
def afterTime (s : List Char) : Option (List Char) := do
  let (hour, ':' :: s) ← fixed 2 s | none
  let (minute, s) ← fixed 2 s
  if 24 ≤ hour || 60 ≤ minute then none
  else
    match s with
    | ':' :: s =>
      let (second, s) ← fixed 2 s
      if second ≤ 60 then afterFraction s else none
    | s => some s

def isOffset : List Char → Bool
  | [] => true
  | ['Z'] => true
  | ['z'] => true
  | sign :: s =>
    (sign = '+' || sign = '-') &&
      match fixed 2 s with
      | some (hour, ':' :: s) =>
        match fixed 2 s with
        | some (minute, []) => hour < 24 && minute < 60
        | _ => false
      | _ => false

def isDate (s : List Char) : Bool := afterDate s == some []

def isDatetime (s : List Char) : Bool :=
  match afterDate s with
  | some [] => true
  | some (separator :: s) =>
    (separator = 'T' || separator = 't' || separator = ' ') && (afterTime s).any isOffset
  | none => afterTime s == some []

def bare? (s : List Char) : Option Value :=
  if s = "true".toList then some (.bool true)
  else if s = "false".toList then some (.bool false)
  else if isDatetime s then some (.datetime (String.ofList s))
  else number? s

def isBareChar (c : Char) : Bool := c.isAlphanum || "+-_.:".toList.contains c

/-- A value without quotes; a single blank may stand between a date and a time. -/
def bare : Step Value := fun s =>
  let token := s.takeWhile isBareChar
  let rest := s.drop token.length
  let time := (rest.drop 1).takeWhile isBareChar
  if isDate token && rest.head? = some ' ' && !time.isEmpty then
    (bare? (token ++ ' ' :: time)).map fun v => (v, rest.drop (time.length + 1))
  else (bare? token).map fun v => (v, rest)

end ModelGraph.Toml
