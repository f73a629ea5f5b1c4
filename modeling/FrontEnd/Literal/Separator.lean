import FrontEnd.Literal.Base

/-!
# Digit separators

A `_` in a literal stands between two digits.  The letter of a base counts as a
digit here, so a separator may follow it at once.  `misplaced?` finds the first
separator that stands elsewhere.
-/

namespace FrontEnd
namespace Separator

inductive Before where
  | digit
  | separator
  | other
deriving DecidableEq, Repr

/-- The index of the first misplaced separator among runes of which the first has
index `i` and follows `before`.  A separator with nothing but a digit before it is
known to be misplaced only by what comes after it, one rune later or at the end. -/
def search (isDigit : Char → Bool) : Before → Nat → List Char → Option Nat
  | .separator, i, [] => some (i - 1)
  | _, _, [] => none
  | before, i, c :: cs =>
    if c = '_' then
      if before = .digit then search isDigit .separator (i + 1) cs else some i
    else if isDigit c then search isDigit .digit (i + 1) cs
    else if before = .separator then some (i - 1)
    else search isDigit .other (i + 1) cs

/-- The index of the first separator of a literal that does not stand between two
digits. -/
def misplaced? : List Char → Option Nat
  | '0' :: c :: cs =>
    match Base.ofLetter? c with
    | some b => search b.takes .digit 2 cs
    | none => search Char.isDigit .other 0 ('0' :: c :: cs)
  | cs => search Char.isDigit .other 0 cs

end Separator
end FrontEnd
