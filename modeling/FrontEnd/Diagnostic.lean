import FrontEnd.Literal.Fault
import FrontEnd.Position

/-!
# Diagnostics

What is wrong with a text but does not stop its reading.  A diagnostic names its cause;
the wording is made from the cause in `Problem.message` and nowhere else.
-/

namespace FrontEnd

inductive Problem where
  /-- A read of the input failed, for the reason given. -/
  | readFailure (reason : String)
  | malformedEncoding
  /-- A byte order mark that does not open the text. -/
  | misplacedByteOrderMark
  /-- A rune that begins no token. -/
  | invalidCharacter (c : Char)
  /-- A number of a foreign script where an identifier begins. -/
  | leadingDigit (c : Char)
  | numeral (defect : Defect)
  | integerOverflow (lexeme : String)
  | floatOverflow (lexeme : String)
  /-- What a user of the library reports in its own words. -/
  | note (text : String)
deriving DecidableEq, Repr

namespace Problem

def rune (c : Char) : String :=
  Quoted.codePoint c ++ " " ++ Quoted.char c

def message : Problem → String
  | readFailure reason => "I/O error: " ++ reason
  | malformedEncoding => "invalid UTF-8 encoding"
  | misplacedByteOrderMark => "invalid BOM in the middle of the file"
  | invalidCharacter c => "invalid character " ++ rune c
  | leadingDigit c => "identifier cannot begin with digit " ++ rune c
  | numeral defect => defect.message
  | integerOverflow lexeme => "integer literal " ++ lexeme ++ " overflows i64"
  | floatOverflow lexeme => "float literal " ++ lexeme ++ " out of range"
  | note text => text

end Problem

structure Diagnostic where
  pos : Position
  problem : Problem
deriving DecidableEq, Repr

namespace Diagnostic

def message (d : Diagnostic) : String :=
  d.problem.message

def text (d : Diagnostic) : String :=
  "(" ++ toString d.pos.line ++ ", " ++ toString d.pos.col ++ ") " ++ d.message

end Diagnostic

/-- What becomes of the diagnostics that are reported.  Reporting never stops the
reading, so a sink only decides what is left of them in the end. -/
inductive Sink where
  | keep
  | drop
deriving DecidableEq, Repr

def Sink.contents (s : Sink) (reports : List Diagnostic) : List Diagnostic :=
  match s with
  | keep => reports
  | drop => []

end FrontEnd
