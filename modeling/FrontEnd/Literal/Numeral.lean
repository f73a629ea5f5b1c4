import FrontEnd.Literal.Base

/-!
# Numerals

The parts a number is written with, kept as they were written: what it opens with,
the digits before the point, those after it, the exponent and the mark of an
imaginary number.  `Numeral.read` takes as much of a text as can be a number and
accepts more than is right, so that a malformed literal is one token with one
complaint; `Numeral.text` writes the parts back, and `read_text` says that reading
loses nothing.
-/

namespace FrontEnd

/-- What a numeral opens with.  A bare zero is both the sign of base eight and a
digit. -/
inductive Lead where
  | plain
  | zero
  | marked (letter : Char)
deriving DecidableEq, Repr, Inhabited

namespace Lead

def text : Lead → List Char
  | plain => []
  | zero => ['0']
  | marked letter => ['0', letter]

def base : Lead → Base
  | plain => .decimal
  | zero => .octal
  | marked letter => (Base.ofLetter? letter).getD .decimal

def isMarked : Lead → Bool
  | marked _ => true
  | _ => false

def read : List Char → Lead
  | '0' :: c :: _ => if (Base.ofLetter? c).isSome then marked c else zero
  | '0' :: [] => zero
  | _ => plain

theorem read_text (cs : List Char) : (read cs).text ++ cs.drop (read cs).text.length = cs := by
  unfold read
  split
  · split <;> simp [text]
  · simp [text]
  · simp [text]

end Lead

def inRun (b : Base) (c : Char) : Bool :=
  c = '_' || b.takes c

structure Exponent where
  marker : Char
  sign : Option Char
  digits : List Char
deriving DecidableEq, Repr, Inhabited

namespace Exponent

def text (e : Exponent) : List Char :=
  e.marker :: (e.sign.toList ++ e.digits)

/-- The letters that begin an exponent: `e` scales by ten and `p` by two. -/
def isMarker (c : Char) : Bool :=
  c = 'e' || c = 'E' || c = 'p' || c = 'P'

def readSign : List Char → Option Char × List Char
  | '+' :: cs => (some '+', cs)
  | '-' :: cs => (some '-', cs)
  | cs => (none, cs)

theorem readSign_text (cs : List Char) : (readSign cs).1.toList ++ (readSign cs).2 = cs := by
  unfold readSign
  split <;> rfl

/-- The exponent at the front of a text, if there is one, and what follows it. -/
def read : List Char → Option Exponent × List Char
  | [] => (none, [])
  | c :: cs =>
    if isMarker c then
      let (sign, ds) := readSign cs
      (some ⟨c, sign, ds.takeWhile (inRun .decimal)⟩, ds.dropWhile (inRun .decimal))
    else (none, c :: cs)

theorem read_text (cs : List Char) : (read cs).1.elim [] text ++ (read cs).2 = cs := by
  cases cs with
  | nil => rfl
  | cons c cs =>
    simp only [read]
    split
    · have h := readSign_text cs
      simp [text, List.takeWhile_append_dropWhile, h]
    · rfl

end Exponent

structure Numeral where
  lead : Lead
  /-- Digits and separators before the point. -/
  whole : List Char
  /-- Digits and separators after the point, if there is a point. -/
  fraction : Option (List Char)
  exponent : Option Exponent
  imaginary : Bool
deriving DecidableEq, Repr, Inhabited

namespace Numeral

def base (n : Numeral) : Base :=
  n.lead.base

def pointed : Option (List Char) → List Char
  | none => []
  | some ds => '.' :: ds

def mantissa (n : Numeral) : List Char :=
  n.lead.text ++ n.whole ++ pointed n.fraction

/-- Everything before the mark of an imaginary number. -/
def magnitude (n : Numeral) : List Char :=
  n.mantissa ++ n.exponent.elim [] Exponent.text

def imaginaryMark : Bool → List Char
  | true => ['i']
  | false => []

def text (n : Numeral) : List Char :=
  n.magnitude ++ imaginaryMark n.imaginary

/-- Whether the numeral stands for an integer: no point, no exponent, not
imaginary. -/
def isInteger (n : Numeral) : Bool :=
  n.fraction.isNone && n.exponent.isNone && !n.imaginary

def readFraction (b : Base) : List Char → Option (List Char) × List Char
  | '.' :: cs => (some (cs.takeWhile (inRun b)), cs.dropWhile (inRun b))
  | cs => (none, cs)

/-- Whether an imaginary number ends at the front of a text, and what follows it. -/
def readImaginary : List Char → Bool × List Char
  | 'i' :: cs => (true, cs)
  | cs => (false, cs)

/-- The numeral at the front of a text that begins with a digit, and what follows
it. -/
def read (cs : List Char) : Numeral × List Char :=
  let lead := Lead.read cs
  let digits := cs.drop lead.text.length
  let fraction := readFraction lead.base (digits.dropWhile (inRun lead.base))
  let exponent := Exponent.read fraction.2
  let imaginary := readImaginary exponent.2
  (⟨lead, digits.takeWhile (inRun lead.base), fraction.1, exponent.1, imaginary.1⟩, imaginary.2)

theorem readFraction_text (b : Base) (cs : List Char) :
    pointed (readFraction b cs).1 ++ (readFraction b cs).2 = cs := by
  unfold readFraction
  split <;> simp [pointed]

theorem readImaginary_text (cs : List Char) :
    imaginaryMark (readImaginary cs).1 ++ (readImaginary cs).2 = cs := by
  unfold readImaginary
  split <;> rfl

/-- Reading a numeral loses nothing. -/
theorem read_text (cs : List Char) : (read cs).1.text ++ (read cs).2 = cs := by
  simp only [read, text, magnitude, mantissa, List.append_assoc]
  rw [readImaginary_text, Exponent.read_text, readFraction_text,
    List.takeWhile_append_dropWhile, Lead.read_text]

/-- A numeral read from a text that begins with a digit has that digit. -/
theorem read_text_ne_nil {c : Char} (h : c.isDigit = true) (cs : List Char) :
    (read (c :: cs)).1.text ≠ [] := by
  have key : (Lead.read (c :: cs)).text ≠ [] ∨ Lead.read (c :: cs) = .plain := by
    unfold Lead.read
    split
    · split <;> simp [Lead.text]
    · simp [Lead.text]
    · exact Or.inr rfl
  intro hn
  simp only [read, text, magnitude, mantissa, List.append_eq_nil_iff] at hn
  rcases key with k | k
  · exact k hn.1.1.1.1
  · have hr : inRun .decimal c = true := by simp [inRun, Base.takes, h]
    have := hn.1.1.1.2
    simp [k, Lead.text, Lead.base, hr] at this

end Numeral
end FrontEnd
