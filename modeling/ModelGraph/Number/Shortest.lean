import ModelGraph.Number.Double

/-!
The shortest decimal that reads back as a double: the fewest digits whose value lies among the reals
that round to the double, and of those the nearest.
-/

namespace ModelGraph

structure Decimal where
  digits : Nat
  scale : Int
  deriving DecidableEq, Repr

namespace Decimal

def digitChars (d : Decimal) : List Char := Nat.toDigits 10 d.digits

/-- Drops zeros at the end of the digits; `fuel` bounds their number. -/
def stripZeros : Nat → Decimal → Decimal
  | 0, d => d
  | fuel + 1, d =>
    if d.digits ≠ 0 && d.digits % 10 = 0 then stripZeros fuel ⟨d.digits / 10, d.scale + 1⟩ else d

def leadingExponent (d : Decimal) : Int := d.scale + (d.digitChars.length : Int) - 1

end Decimal

namespace Double

/-- The reals that round to a magnitude, as quarter units of its last place: their lower end, the
magnitude and their upper end. -/
def quarters (d : Double) : Nat × Nat × Nat :=
  let m := d.mantissa
  let lower := if m = Nat.pow 2 52 && d.exponentField > 1 then 4 * m - 1 else 4 * m - 2
  (lower, 4 * m, 4 * m + 2)

def decimalScale (num den : Nat) : Int :=
  if num ≥ den then ((Nat.toDigits 10 (num / den)).length : Int) - 1
  else
    let k := (Nat.toDigits 10 (den / num)).length
    if num * Nat.pow 10 (k - 1) ≥ den then -((k : Int) - 1) else -(k : Int)

/-- Of the two neighbours of `num / den` among the multiples of `10 ^ k`, the nearest that rounds
back; a tie goes to the even one. -/
def neighbour? (d : Double) (k : Int) : Option Decimal :=
  let (lower, value, upper) := d.quarters
  let closed := d.mantissa % 2 = 0
  -- every length is scaled by the same positive factor
  let unit :=
    (if k ≥ 0 then Nat.pow 10 k.toNat else 1) *
      (if d.exponent ≥ 2 then 1 else Nat.pow 2 (2 - d.exponent).toNat)
  let factor :=
    (if k ≥ 0 then 1 else Nat.pow 10 (-k).toNat) *
      (if d.exponent ≥ 2 then Nat.pow 2 (d.exponent - 2).toNat else 1)
  let low := lower * factor
  let mid := value * factor
  let high := upper * factor
  let within (n : Nat) : Bool :=
    if closed then low ≤ n * unit && n * unit ≤ high else low < n * unit && n * unit < high
  let n := mid / unit
  let below := mid - n * unit
  let above := (n + 1) * unit - mid
  let nearer := if below < above || (below = above && n % 2 = 0) then n else n + 1
  let farther := if nearer = n then n + 1 else n
  if nearer ≠ 0 && within nearer then some ⟨nearer, k⟩
  else if farther ≠ 0 && within farther then some ⟨farther, k⟩
  else none

def shortest (d : Double) : Decimal :=
  if d.isZero then ⟨0, 0⟩
  else
    let (num, den) := d.ratio
    let top := decimalScale num den
    let found := (List.range 17).findSome? fun (i : Nat) => d.neighbour? (top - i)
    Decimal.stripZeros 400 (found.getD ⟨d.mantissa, 0⟩)

/-- Exponents from -5 to 15 are written positionally and always with a point; others with the sign
of the exponent. -/
def chars (d : Double) : List Char :=
  let sign := if d.isNegative then ['-'] else []
  let s := d.shortest
  let digits := s.digitChars
  let e := s.leadingExponent
  let zeros (n : Nat) := List.replicate n '0'
  let body :=
    if -5 ≤ e && e ≤ 15 then
      if s.scale ≥ 0 then digits ++ zeros s.scale.toNat ++ ['.', '0']
      else if e ≥ 0 then digits.take (e.toNat + 1) ++ '.' :: digits.drop (e.toNat + 1)
      else '0' :: '.' :: (zeros ((-e).toNat - 1) ++ digits)
    else
      let mark := if e < 0 then ['e', '-'] else ['e', '+']
      let power := mark ++ Nat.toDigits 10 e.natAbs
      match digits with
      | [] => power
      | [c] => c :: power
      | c :: more => c :: '.' :: (more ++ power)
  sign ++ body

end Double
end ModelGraph
