import FrontEnd.Double.Rounding

/-!
# Writing a double

A double is written with the fewest decimal digits that read back as it, and of
several such numbers as the one nearest to it.  A decimal with few digits is a point
of a coarse grid of powers of ten, so `digits` looks for the coarsest grid with a
point in the interval of the reals that round to the double.
-/

namespace FrontEnd
namespace Double

/-- The reals that round to a positive double, in quarters of its last bit, whose
exponent is `scale`.  The lower half is narrower above a power of two, where the
doubles below lie twice as dense.  The ends round to the double iff its significand is
even. -/
structure Interval where
  low : Nat
  middle : Nat
  high : Nat
  closed : Bool
  scale : Int

def interval (x : Double) : Interval :=
  let m := x.significand
  { low := 4 * m - if m = 1 <<< 52 && 1 < x.field then 1 else 2
    middle := 4 * m
    high := 4 * m + 2
    closed := m % 2 = 0
    scale := x.scale - 2 }

namespace Interval

/-- The factors that make points of the grid `10 ^ e` and quarters of the last bit
comparable. -/
def gridFactor (i : Interval) (e : Int) : Nat :=
  Nat.pow 10 e.toNat <<< (-i.scale).toNat

def bitFactor (i : Interval) (e : Int) : Nat :=
  Nat.pow 10 (-e).toNat <<< i.scale.toNat

def has (i : Interval) (e : Int) (c : Nat) : Bool :=
  let p := c * i.gridFactor e
  let low := i.low * i.bitFactor e
  let high := i.high * i.bitFactor e
  if i.closed then low ≤ p && p ≤ high else low < p && p < high

/-- The point of the grid `10 ^ e` in the interval that is nearest to its middle, the
upper one of two that are equally near.  If any point of the grid is in the interval, so
is one of the two around the middle. -/
def point? (i : Interval) (e : Int) : Option Nat :=
  let middle := i.middle * i.bitFactor e
  let c := middle / i.gridFactor e
  let upper := (c + 1) * i.gridFactor e - middle ≤ middle - c * i.gridFactor e
  match i.has e c, i.has e (c + 1) with
  | true, true => some (if upper then c + 1 else c)
  | true, false => some c
  | false, true => some (c + 1)
  | false, false => none

end Interval

/-- Digits `value` times the power of ten `exponent`. -/
structure Digits where
  value : Nat
  exponent : Int
deriving DecidableEq, Repr

/-- The exponent of a grid at least as coarse as any with a point that rounds to `x`.
The constant is the logarithm of two to base ten. -/
def coarsest (x : Double) : Int :=
  (x.significand.log2 + x.scale) * 30103 / 100000 + 2

/-- The shortest digits of a positive finite double.  Seventeen digits always suffice,
so twenty grids do. -/
def digits (x : Double) : Digits :=
  let found := (List.range 20).findSome? fun (k : Nat) =>
    let e := x.coarsest - k
    (x.interval.point? e).map fun c => Digits.mk c e
  found.getD ⟨0, 0⟩

/-- How a number is laid out: positionally as long as the point stands between `least`
and `most` places after the first digit, and with an exponent otherwise. -/
structure Layout where
  least : Int
  most : Int

/-- Numbers from `10 ^ -4` up to `10 ^ 16` are written positionally. -/
def plainLayout : Layout := ⟨-3, 16⟩

def positional (ds : List Char) (places : Int) : List Char :=
  if places ≤ 0 then
    '0' :: '.' :: (List.replicate (-places).toNat '0' ++ ds)
  else if ds.length ≤ places then
    ds ++ List.replicate (places.toNat - ds.length) '0' ++ ['.', '0']
  else ds.take places.toNat ++ '.' :: ds.drop places.toNat

def scientific (ds : List Char) (places : Int) : List Char :=
  let mantissa := match ds with
    | d :: e :: ds => d :: '.' :: e :: ds
    | ds => ds
  mantissa ++ 'e' :: (toString (places - 1)).toList

def magnitudeText (l : Layout) (x : Double) : List Char :=
  if x.magnitude = 0 then ['0', '.', '0']
  else
    let d := x.digits
    let ds := Nat.toDigits 10 d.value
    let places := ds.length + d.exponent
    if l.least ≤ places && places ≤ l.most then positional ds places
    else scientific ds places

/-- The text of a double.  What is not a number has no sign. -/
def text (x : Double) : String :=
  if x.isNaN then "NaN"
  else
    let magnitude := if x.isInfinite then ['i', 'n', 'f'] else magnitudeText plainLayout x
    String.ofList (if x.isNegative then '-' :: magnitude else magnitude)

end Double
end FrontEnd
