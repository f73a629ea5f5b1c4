import FrontEnd.Literal.Numeral

/-!
# The value of an integer literal

Separators count for nothing, the lead gives the base and the rest are digits.  The
digits are taken from the left, and the first that either is none or pushes the value
past the limit decides which error it is.
-/

namespace FrontEnd

inductive LiteralError where
  /-- It is not the text of a number. -/
  | malformed
  /-- The number is too large. -/
  | overflow
deriving DecidableEq, Repr, Inhabited

namespace Literal

def maxInteger : Nat := 0x7FFFFFFFFFFFFFFF

def withoutSeparators (cs : List Char) : List Char :=
  cs.filter (· ≠ '_')

/-- Continues a number `n` by digits in base `b`, as long as it stays within
`limit`. -/
def digitsFrom (b : Base) (limit n : Nat) : List Char → Except LiteralError Nat
  | [] => .ok n
  | c :: cs =>
    match b.digit? c with
    | none => .error .malformed
    | some d =>
      let m := n * b.radix + d
      if m ≤ limit then digitsFrom b limit m cs else .error .overflow

def digitsValue (b : Base) (limit : Nat) (ds : List Char) : Except LiteralError Nat :=
  if ds = [] then .error .malformed else digitsFrom b limit 0 ds

/-- Base and digits of a literal without separators.  A zero alone is a decimal digit;
before other digits it is the sign of base eight. -/
def integerDigits (cs : List Char) : Base × List Char :=
  if cs = ['0'] then (.decimal, cs)
  else
    let lead := Lead.read cs
    (lead.base, cs.drop lead.text.length)

def integerValue (lexeme : String) : Except LiteralError Nat :=
  let d := integerDigits (withoutSeparators lexeme.toList)
  digitsValue d.1 maxInteger d.2

end Literal
end FrontEnd
