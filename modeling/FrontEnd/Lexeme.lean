import FrontEnd.Diagnostic
import FrontEnd.Token
import FrontEnd.Unicode.Alphabetic
import FrontEnd.Unicode.Combining
import FrontEnd.Unicode.Numeric

/-!
# The token at the front of a text

The first rune decides what kind of token begins, and every kind but the single runes
takes in as much as it can.  `Lexeme.scan` is defined on runes that begin a token; what
begins none is the lexer's to skip.
-/

namespace FrontEnd

def isLetter (c : Char) : Bool :=
  c.isAlpha || c = '_'

def isForeign (c : Char) : Bool :=
  127 < c.toNat

/-- Whether `c` may begin an identifier.  A number of a foreign script may, but is
reported. -/
def beginsIdent (c : Char) : Bool :=
  isLetter c || isForeign c && (Unicode.alphabetic c || Unicode.numeric c)

def continuesIdent (c : Char) : Bool :=
  isLetter c || c.isDigit ||
    isForeign c && (Unicode.alphabetic c || Unicode.combining c || Unicode.numeric c)

def isSymbol (c : Char) : Bool :=
  "!#$%&*+./<=>?@\\^|-~:".toList.contains c

/-- The tokens of one rune. -/
def single? : Char → Option TokenKind
  | '\n' => some .semi
  | '(' => some .parenLeft
  | ')' => some .parenRight
  | '\x7b' => some .braceLeft
  | '\x7d' => some .braceRight
  | '\'' => some .quote
  | '"' => some .doubleQuote
  | ';' => some .semi
  | _ => none

def beginsToken (c : Char) : Bool :=
  beginsIdent c || c.isDigit || (single? c).isSome || isSymbol c

def wordKind (word : List Char) : TokenKind :=
  if word = "let".toList then .letWord
  else if word = "type".toList then .typeWord
  else if word = "seal".toList then .sealWord
  else .ident

def symbolKind (run : List Char) : TokenKind :=
  if run = "->".toList then .arrow
  else if run = "=".toList then .assign
  else if run = ":".toList then .colon
  else .symbol

namespace Numeral

def kind (n : Numeral) : TokenKind :=
  if n.imaginary then .complex else if n.isInteger then .integer else .float

end Numeral

/-- A problem within a token.  It is shown `offset` runes into the token, once `seen`
runes of it have been read. -/
structure Flaw where
  problem : Problem
  offset : Nat
  seen : Nat
deriving DecidableEq, Repr

structure Lexeme where
  kind : TokenKind
  runes : List Char
  flaw : Option Flaw
deriving DecidableEq, Repr

namespace Lexeme

def token (l : Lexeme) : Token :=
  ⟨l.kind, String.ofList l.runes⟩

def ident (c : Char) (cs : List Char) : Lexeme :=
  let word := c :: cs.takeWhile continuesIdent
  ⟨wordKind word, word,
    if isLetter c || Unicode.alphabetic c then none else some ⟨.leadingDigit c, 0, 0⟩⟩

def number (cs : List Char) : Lexeme :=
  let n := (Numeral.read cs).1
  ⟨n.kind, n.text, n.fault?.map fun f => ⟨.numeral f.defect, f.offset, f.seen⟩⟩

def symbol (c : Char) (cs : List Char) : Lexeme :=
  let run := c :: cs.takeWhile isSymbol
  ⟨symbolKind run, run, none⟩

/-- The token at the front of the text `c :: cs`, where `c` begins one. -/
def scan (c : Char) (cs : List Char) : Lexeme :=
  if beginsIdent c then ident c cs
  else if c.isDigit then number (c :: cs)
  else
    match single? c with
    | some kind => ⟨kind, [c], none⟩
    | none => symbol c cs

theorem scan_runes_ne_nil (c : Char) (cs : List Char) : (scan c cs).runes ≠ [] := by
  unfold scan
  split
  · simp [ident]
  · split
    · next h => exact Numeral.read_text_ne_nil h cs
    · split <;> simp [symbol]

end Lexeme
end FrontEnd
