import FrontEnd.Double.Decimal
import FrontEnd.Literal.Integer

/-!
# The value of a float literal

A literal is decimal unless it opens with `0x`.  Of a hexadecimal mantissa the leading
digits are kept as an integer of at most sixty-four bits, which is then rounded and
scaled by the power of two that the exponent and the digits after the point make up.
-/

namespace FrontEnd
namespace Literal

/-- The part of a hexadecimal mantissa read so far: `bits · 2 ^ scale`, less the digits
that no longer fit. -/
structure Mantissa where
  bits : Nat
  scale : Int
deriving DecidableEq, Repr

namespace Mantissa

def hasRoom (m : Mantissa) : Bool :=
  m.bits < 1 <<< 60

/-- Takes in a digit before the point.  One that does not fit still moves the digits
before it. -/
def takeWhole (m : Mantissa) (d : Nat) : Mantissa :=
  if m.hasRoom then ⟨m.bits * 16 + d, m.scale⟩ else ⟨m.bits, m.scale + 4⟩

/-- Takes in a digit after the point.  One that does not fit is lost. -/
def takeFraction (m : Mantissa) (d : Nat) : Mantissa :=
  if m.hasRoom then ⟨m.bits * 16 + d, m.scale - 4⟩ else m

def ofDigits (e : Int) (whole fraction : List Nat) : Mantissa :=
  fraction.foldl takeFraction (whole.foldl takeWhole ⟨0, e⟩)

/-- The double it stands for: the bits are rounded, and the result is scaled. -/
def toDouble (m : Mantissa) : Double :=
  (Double.ofNat m.bits).scaleBy m.scale

end Mantissa

/-- A text cut at the first `sep`, if it has one. -/
def cut (sep : Char) (cs : List Char) : Option (List Char × List Char) :=
  match cs.dropWhile (· ≠ sep) with
  | [] => none
  | _ :: rest => some (cs.takeWhile (· ≠ sep), rest)

def finite (x : Double) : Except LiteralError Double :=
  if x.isFinite then .ok x else .error .overflow

/-- The value of a float literal after `0x`, without separators and in lower case.  The
exponent is read first, and one below every integer makes the value zero whatever the
mantissa. -/
def hexFloatValue (cs : List Char) : Except LiteralError Double :=
  match cut 'p' cs with
  | none => .error .malformed
  | some (mantissa, exponent) =>
    let (negative, ds) := Double.splitSign exponent
    match digitsValue .decimal (if negative then maxInteger + 1 else maxInteger) ds with
    | .error .malformed => .error .malformed
    | .error .overflow => if negative then .ok .zero else .error .overflow
    | .ok e =>
      let (whole, fraction) := (cut '.' mantissa).getD (mantissa, [])
      if whole = [] && fraction = [] then .error .malformed
      else
        match whole.mapM Base.hexadecimal.digit?, fraction.mapM Base.hexadecimal.digit? with
        | some whole, some fraction =>
          finite (Mantissa.ofDigits (if negative then -(e : Int) else e) whole fraction).toDouble
        | _, _ => .error .malformed

/-- The value of a decimal float literal without separators and in lower case. -/
def decimalFloatValue (cs : List Char) : Except LiteralError Double :=
  match Double.read cs with
  | none => .error .malformed
  | some x => finite x

def floatValue (lexeme : String) : Except LiteralError Double :=
  match (withoutSeparators lexeme.toList).map Char.toLower with
  | '0' :: 'x' :: cs => hexFloatValue cs
  | cs => decimalFloatValue cs

end Literal
end FrontEnd
