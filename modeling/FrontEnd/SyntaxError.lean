import FrontEnd.Position
import FrontEnd.Token

/-!
# Syntax errors

The first thing in a text that does not fit the grammar.  An error says what was expected
and what was found in its place.
-/

namespace FrontEnd

/-- What the grammar asks for at some place. -/
inductive Expectation where
  | token (kind : TokenKind)
  | declaration
  /-- The rest of the declaration of `name`. -/
  | declarationTail (name : String)
  | expression
  | type
  | operator
  /-- The double arrow after a type context. -/
  | contextArrow
deriving DecidableEq, Repr

namespace Expectation

def text : Expectation → String
  | token kind => kind.text
  | declaration => "declaration"
  | declarationTail name => "':', '=' or a parameter after `" ++ name ++ "`"
  | expression => "expression"
  | type => "type"
  | operator => "operator"
  | contextArrow => "'=>' after type context"

end Expectation

inductive SyntaxError where
  | expected (what : Expectation) (found : Token) (loc : Location)
  /-- Something other than a name before the colon of a type context. -/
  | invalidField (loc : Location)
deriving DecidableEq, Repr

namespace SyntaxError

def loc : SyntaxError → Location
  | expected _ _ l => l
  | invalidField l => l

def found? : SyntaxError → Option Token
  | expected _ t _ => some t
  | invalidField _ => none

def message : SyntaxError → String
  | expected what found loc =>
    loc.text ++ ": expected " ++ what.text ++ ", found " ++ found.text
  | invalidField loc => loc.text ++ ": only names may appear before ':' in a type context"

end SyntaxError
end FrontEnd
