import FrontEnd.Double.Rounding

/-!
# Reading a double

The decimal notation of a double: digits with an optional point and an optional
exponent, or the name of an infinity or of what is not a number, each after an
optional sign.  Letters are lower case.
-/

namespace FrontEnd
namespace Double

def digitsValue (ds : List Char) : Nat :=
  ds.foldl (fun n d => 10 * n + (d.toNat - '0'.toNat)) 0

/-- The value of an exponent's digits.  Once it is past every exponent that matters
the remaining digits are let go. -/
def exponentValue (ds : List Char) : Nat :=
  ds.foldl (fun n d => if n < 65536 then 10 * n + (d.toNat - '0'.toNat) else n) 0

def splitSign : List Char → Bool × List Char
  | '-' :: cs => (true, cs)
  | '+' :: cs => (false, cs)
  | cs => (false, cs)

/-- The exponent that is all of a text: nothing, or `e` with digits after it. -/
def readExponent : List Char → Option Int
  | [] => some 0
  | 'e' :: cs =>
    let (negative, ds) := splitSign cs
    if ds ≠ [] && ds.all Char.isDigit then
      some (if negative then -(exponentValue ds : Int) else exponentValue ds)
    else none
  | _ => none

/-- A positive decimal number that is all of a text, as an integer and the power of
ten it is multiplied by. -/
def readDecimal (cs : List Char) : Option (Nat × Int) :=
  let whole := cs.takeWhile Char.isDigit
  let rest := cs.dropWhile Char.isDigit
  let (fraction, rest) : List Char × List Char :=
    match rest with
    | '.' :: cs => (cs.takeWhile Char.isDigit, cs.dropWhile Char.isDigit)
    | cs => ([], cs)
  if whole ++ fraction = [] then none
  else (readExponent rest).map fun e => (digitsValue (whole ++ fraction), e - fraction.length)

def readMagnitude (cs : List Char) : Option Double :=
  if cs = "inf".toList || cs = "infinity".toList then some infinity
  else if cs = "nan".toList then some nan
  else (readDecimal cs).map fun d => ofDecimal d.1 d.2

def read (cs : List Char) : Option Double :=
  let (negative, cs) := splitSign cs
  (readMagnitude cs).map (withSign negative)

end Double
end FrontEnd
