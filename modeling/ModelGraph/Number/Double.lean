/-!
Finite doubles as sixty-four bit words, computed with in exact arithmetic: the double nearest to a
ratio, products and quotients rounded once, and the double that a decimal text denotes.
-/

namespace ModelGraph

structure Double where
  bits : UInt64
  deriving DecidableEq, Repr, Inhabited

namespace Double

/-- The quotient rounded to the nearest natural, a half to the even neighbour. -/
def roundDiv (num den : Nat) : Nat :=
  let q := num / den
  let r := num % den
  if 2 * r > den || (2 * r == den && q % 2 == 1) then q + 1 else q

def isNegative (d : Double) : Bool := d.bits.toNat ≥ Nat.pow 2 63

def exponentField (d : Double) : Nat := d.bits.toNat / Nat.pow 2 52 % Nat.pow 2 11

def fractionField (d : Double) : Nat := d.bits.toNat % Nat.pow 2 52

def mantissa (d : Double) : Nat :=
  if d.exponentField = 0 then d.fractionField else d.fractionField + Nat.pow 2 52

def exponent (d : Double) : Int :=
  if d.exponentField = 0 then -1074 else (d.exponentField : Int) - 1075

def isZero (d : Double) : Bool := d.mantissa == 0

def ratio (d : Double) : Nat × Nat :=
  if d.exponent ≥ 0 then (d.mantissa * Nat.pow 2 d.exponent.toNat, 1)
  else (d.mantissa, Nat.pow 2 (-d.exponent).toNat)

def binaryScale (num den : Nat) : Int :=
  let e : Int := (Nat.log2 num : Int) - (Nat.log2 den : Int)
  let reaches := if e ≥ 0 then num ≥ den * Nat.pow 2 e.toNat else num * Nat.pow 2 (-e).toNat ≥ den
  if reaches then e else e - 1

/-- The nonnegative double nearest to `num / den`, a tie to the even mantissa; none if that is
infinite. -/
def nearest? (num den : Nat) : Option Double :=
  if num = 0 then some ⟨0⟩
  else
    let q : Int := max (binaryScale num den - 52) (-1074)
    let m :=
      if q ≥ 0 then roundDiv num (den * Nat.pow 2 q.toNat)
      else roundDiv (num * Nat.pow 2 (-q).toNat) den
    let one := Nat.pow 2 52
    let word := if m < one then m else (q + 1075).toNat * one + (m - one)
    if word < 2047 * one then some ⟨UInt64.ofNat word⟩ else none

def negate (d : Double) : Double := ⟨UInt64.ofNat (d.bits.toNat + Nat.pow 2 63)⟩

def signed (negative : Bool) (d : Double) : Double := if negative then d.negate else d

def times? (a b : Double) : Option Double :=
  let (an, ad) := a.ratio
  let (bn, bd) := b.ratio
  nearest? (an * bn) (ad * bd)

def over? (a b : Double) : Option Double :=
  let (an, ad) := a.ratio
  let (bn, bd) := b.ratio
  nearest? (an * bd) (ad * bn)

def powerOfTen? (k : Nat) : Option Double := nearest? (Nat.pow 10 k) 1

/-- Scales a magnitude by `10 ^ k` in steps that stay in range: powers of ten up to `10 ^ 308` are
rounded before they are used, and each step rounds its result. Too large a result is refused. -/
def scale? (f : Double) (k : Int) : Option Double :=
  if k.natAbs ≤ 308 then
    (powerOfTen? k.natAbs).bind fun p => if k ≥ 0 then f.times? p else f.over? p
  else if f.isZero then some f
  else if k ≥ 0 then none
  else (powerOfTen? 308).bind fun p => (f.over? p).bind fun g => g.scale? (k + 308)
termination_by k.natAbs
decreasing_by omega

def ofDecimal? (negative : Bool) (significand : Nat) (exponent : Int) : Option Double :=
  ((nearest? significand 1).bind fun f => f.scale? exponent).map (signed negative)

def ofInt? (n : Int) : Option Double := (nearest? n.natAbs 1).map (signed (n < 0))

def agrees (a b : Double) : Bool := a == b || (a.isZero && b.isZero)

end Double
end ModelGraph
