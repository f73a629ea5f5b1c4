/-!
# Number bases

The four bases a literal may be written in, and the digits of each.
-/

namespace FrontEnd

inductive Base where
  | binary
  | octal
  | decimal
  | hexadecimal
deriving DecidableEq, Repr, Inhabited

def isHexDigit (c : Char) : Bool :=
  c.isDigit || ('a' ≤ c && c ≤ 'f') || ('A' ≤ c && c ≤ 'F')

def hexDigitValue (c : Char) : Nat :=
  if c.isDigit then c.toNat - '0'.toNat
  else if 'a' ≤ c then c.toNat - 'a'.toNat + 10
  else c.toNat - 'A'.toNat + 10

namespace Base

def radix : Base → Nat
  | binary => 2
  | octal => 8
  | decimal => 10
  | hexadecimal => 16

def name : Base → String
  | binary => "binary"
  | octal => "octal"
  | decimal => "decimal"
  | hexadecimal => "hexadecimal"

/-- The base that `0` and the letter `c` announce together. -/
def ofLetter? (c : Char) : Option Base :=
  match c.toLower with
  | 'x' => some hexadecimal
  | 'o' => some octal
  | 'b' => some binary
  | _ => none

def digit? (b : Base) (c : Char) : Option Nat :=
  if isHexDigit c && hexDigitValue c < b.radix then some (hexDigitValue c) else none

/-- What a run of digits in base `b` takes in besides separators.  Every decimal
digit belongs to a run of any base, so that one too large for the base is part of the
literal it spoils. -/
def takes (b : Base) (c : Char) : Bool :=
  match b with
  | hexadecimal => isHexDigit c
  | _ => c.isDigit

end Base
end FrontEnd
