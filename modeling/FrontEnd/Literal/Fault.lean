import FrontEnd.Literal.Numeral
import FrontEnd.Literal.Separator
import FrontEnd.Text.Quoted

/-!
# What can be wrong with a numeral

A numeral is reported for at most one fault, the first in the order in which its
parts are met.  What needs the whole literal, a digit too large for the base or a
misplaced separator, comes last and only if the shape of the literal is right.
-/

namespace FrontEnd

inductive Defect where
  /-- A point after `0o` or `0b`. -/
  | radixPoint (base : Base)
  | noDigits (base : Base)
  /-- The exponent letter of base ten after another base. -/
  | decimalExponent (marker : Char)
  /-- The exponent letter of base two after another base than sixteen. -/
  | hexadecimalExponent (marker : Char)
  | emptyExponent
  /-- A point after `0x` with no exponent to follow. -/
  | missingExponent
  | strayDigit (digit : Char) (base : Base)
  | separator
deriving DecidableEq, Repr

def Defect.message : Defect → String
  | radixPoint base => "invalid radix point in " ++ base.name ++ " literal"
  | noDigits base => base.name ++ " literal has no digits"
  | decimalExponent marker => Quoted.char marker ++ " exponent requires decimal mantissa"
  | hexadecimalExponent marker =>
    Quoted.char marker ++ " exponent requires hexadecimal mantissa"
  | emptyExponent => "exponent has no digits"
  | missingExponent => "hexadecimal mantissa requires a 'p' exponent"
  | strayDigit digit base =>
    "invalid digit " ++ Quoted.char digit ++ " in " ++ base.name ++ " literal"
  | separator => "'_' must separate successive digits"

/-- A defect of a numeral.  It is shown `offset` runes into the literal, and it is
known once `seen` runes have been read, which may be later. -/
structure Fault where
  defect : Defect
  offset : Nat
  seen : Nat
deriving DecidableEq, Repr

namespace Fault

def here (defect : Defect) (offset : Nat) : Fault :=
  ⟨defect, offset, offset⟩

end Fault

namespace Numeral

def hasDigit (run : List Char) : Bool :=
  run.any (· ≠ '_')

def pointFault (n : Numeral) : Option Fault :=
  if n.fraction.isSome && n.lead.isMarked && n.base ≠ .hexadecimal then
    some (.here (.radixPoint n.base) (n.lead.text ++ n.whole).length)
  else none

/-- A mantissa without a digit. -/
def digitsFault (n : Numeral) : Option Fault :=
  if n.lead = .zero || hasDigit n.whole || n.fraction.any hasDigit then none
  else some (.here (.noDigits n.base) n.mantissa.length)

/-- An exponent whose letter does not go with the base, or that has no digit, or
that is missing where the base demands one. -/
def exponentFault (n : Numeral) : Option Fault :=
  match n.exponent with
  | some e =>
    if e.marker.toLower = 'e' && n.lead.isMarked then
      some (.here (.decimalExponent e.marker) n.mantissa.length)
    else if e.marker.toLower = 'p' && n.base ≠ .hexadecimal then
      some (.here (.hexadecimalExponent e.marker) n.mantissa.length)
    else if hasDigit e.digits then none
    else some (.here .emptyExponent n.magnitude.length)
  | none =>
    if n.fraction.isSome && n.base = .hexadecimal then
      some (.here .missingExponent n.mantissa.length)
    else none

def isStray (b : Base) (c : Char) : Bool :=
  c ≠ '_' && (b.digit? c).isNone

/-- A digit of an integer that its base does not have.  Other literals are free of
this fault: a leading zero is no sign of base eight in them. -/
def digitFault (n : Numeral) : Option Fault :=
  if n.isInteger then
    (n.whole.find? (isStray n.base)).map fun d =>
      ⟨.strayDigit d n.base,
        n.lead.text.length + n.whole.findIdx (isStray n.base), n.text.length⟩
  else none

def separatorFault (n : Numeral) : Option Fault :=
  (Separator.misplaced? n.text).map fun i => ⟨.separator, i, n.text.length⟩

/-- The one fault that is reported. -/
def fault? (n : Numeral) : Option Fault :=
  n.pointFault <|> n.digitsFault <|> n.exponentFault <|> n.digitFault <|> n.separatorFault

end Numeral
end FrontEnd
