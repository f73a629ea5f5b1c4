import FrontEnd.Double.Basic

/-!
# Rounding to the nearest double

`Double.ofRatio` is the one place where a number is rounded: a quotient of naturals
goes to the nearest double, half way to the one with the even significand, and past
the largest finite double to infinity.  Everything is exact arithmetic on naturals.
-/

namespace FrontEnd
namespace Double

/-- The integer nearest to `a / b`, the even one of two that are equally near. -/
def roundHalfEven (a b : Nat) : Nat :=
  let q := a / b
  let r := a % b
  if b < 2 * r || (b = 2 * r && q % 2 = 1) then q + 1 else q

def reaches (num den : Nat) (e : Int) : Bool :=
  den <<< e.toNat ≤ num <<< (-e).toNat

/-- The largest `e` with `2 ^ e ≤ num / den`.  The lengths of the two numbers tell it
up to one. -/
def floorLog (num den : Nat) : Int :=
  let e : Int := num.log2 - den.log2
  if reaches num den e then e else e - 1

/-- The exponent of the last bit of a double between `2 ^ e` and `2 ^ (e + 1)`. -/
def lastBit (e : Int) : Int :=
  max (e - 52) (-1074)

/-- The double nearest to `num / den`.  A significand that rounds up to the next power
of two carries into the exponent by itself, because the exponent field stands right
above the significand. -/
def ofRatio (num den : Nat) : Double :=
  if num = 0 then zero
  else
    let q := lastBit (floorLog num den)
    let n := roundHalfEven (num <<< (-q).toNat) (den <<< q.toNat)
    ofParts false (min (((q + 1074).toNat <<< 52) + n) infinityBits)

def ofNat (n : Nat) : Double :=
  ofRatio n 1

/-- The double nearest to `m · 2 ^ e`.  Powers that are out of reach of any finite
double, or of half the smallest one, are not computed. -/
def ofScaled (m : Nat) (e : Int) : Double :=
  if m = 0 || m.log2 + e < -1100 then zero
  else if 1100 < m.log2 + e then infinity
  else ofRatio (m <<< e.toNat) (1 <<< (-e).toNat)

def ofDecimal (digits : Nat) (e : Int) : Double :=
  ofRatio (digits * Nat.pow 10 e.toNat) (Nat.pow 10 (-e).toNat)

def scaleBy (x : Double) (e : Int) : Double :=
  ofScaled x.significand (x.scale + e)

end Double
end FrontEnd
