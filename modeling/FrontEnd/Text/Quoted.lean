import FrontEnd.Unicode.Extending
import FrontEnd.Unicode.Ignorable
import FrontEnd.Unicode.Unprintable

/-!
# Quoted text

How messages show a piece of source text so that nothing in it can be mistaken for
the message around it: between quotes, with a backslash before what would end the
quotation, and with code points in place of characters that would not show.
-/

namespace FrontEnd
namespace Quoted

/-- Whether `c` would attach itself to a quote before it.  The halfwidth sound marks of
the Japanese syllabary extend the syllable before them, but they are letters and take a
place of their own. -/
def attaches (c : Char) : Bool :=
  Unicode.extending c && c ≠ '\uFF9E' && c ≠ '\uFF9F'

/-- Whether `c` would be seen between quotes as what it is. -/
def isShown (c : Char) : Bool :=
  !attaches c && !Unicode.ignorable c && !Unicode.unprintable c

/-- The form of `c` between two `quote`s.  What would not be seen as what it is is written
by its code point. -/
def escape (quote c : Char) : List Char :=
  if c = '\x00' then ['\\', '0']
  else if c = '\t' then ['\\', 't']
  else if c = '\r' then ['\\', 'r']
  else if c = '\n' then ['\\', 'n']
  else if c = '\\' then ['\\', '\\']
  else if c = quote then ['\\', c]
  else if isShown c then [c]
  else ['\\', 'u', '\x7b'] ++ Nat.toDigits 16 c.toNat ++ ['\x7d']

def string (s : String) : String :=
  String.ofList ('"' :: s.toList.flatMap (escape '"') ++ ['"'])

def char (c : Char) : String :=
  String.ofList ('\'' :: escape '\'' c ++ ['\''])

/-- `U+` and the code point of `c` in at least four upper-case digits. -/
def codePoint (c : Char) : String :=
  let digits := (Nat.toDigits 16 c.toNat).map Char.toUpper
  String.ofList (['U', '+'] ++ List.replicate (4 - digits.length) '0' ++ digits)

end Quoted
end FrontEnd
