import FrontEnd.Text.Quoted

/-!
# Tokens

A token is its kind and the text it was read from.  The kinds include some that a later
version of the language will read; nothing yields them today.
-/

namespace FrontEnd

inductive TokenKind where
  | parenLeft
  | parenRight
  | braceLeft
  | braceRight
  | ident
  | integer
  | float
  | complex
  | rune
  | string
  | letWord
  | typeWord
  | sealWord
  | quote
  | doubleQuote
  | comment
  | semi
  | colon
  | assign
  | minus
  | arrow
  | symbol
  | eof
deriving DecidableEq, Repr, Inhabited

namespace TokenKind

def text : TokenKind → String
  | parenLeft => "'('"
  | parenRight => "')'"
  | braceLeft => "'\x7b'"
  | braceRight => "'\x7d'"
  | ident => "identifier"
  | integer => "integer"
  | float => "float"
  | complex => "complex"
  | rune => "rune"
  | string => "string"
  | letWord => "'let'"
  | typeWord => "'type'"
  | sealWord => "'seal'"
  | quote => "'''"
  | doubleQuote => "'\"'"
  | comment => "comment"
  | semi => "';'"
  | colon => "':'"
  | assign => "'='"
  | minus => "'-'"
  | arrow => "'->'"
  | symbol => "symbol"
  | eof => "EOF"

/-- Whether a newline after such a token ends what it belongs to. -/
def endsLine : TokenKind → Bool
  | ident | integer | float | complex | parenRight | braceRight => true
  | _ => false

end TokenKind

structure Token where
  kind : TokenKind
  lexeme : String
deriving DecidableEq, Repr, Inhabited

namespace Token

def eof : Token := ⟨.eof, ""⟩

def isA (t : Token) (kind : TokenKind) : Bool :=
  t.kind = kind

def text (t : Token) : String :=
  if t.kind = .eof then t.kind.text
  else if t.kind = .semi && t.lexeme = "\n" then "newline"
  else t.kind.text ++ " " ++ Quoted.string t.lexeme

end Token
end FrontEnd
