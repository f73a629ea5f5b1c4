import FrontEnd.Lexer
import FrontEnd.SyntaxError
import FrontEnd.Tree.Basic

/-!
# Reading a grammar off tokens

A `Parser` stands on one token of a text.  A `Parse` looks at that token only: it either
takes it or leaves it, so the parser's place never depends on tokens further on, and when
a parse fails the parser stays where it failed.

Reports come with tokens.  Those of a token are made when the parser moves onto it, so
they are in order with what the parser itself reports about the tokens before.
-/

namespace FrontEnd

namespace Tokens

def current (ts : Tokens) : Entry :=
  ts.entries.headD ts.last

end Tokens

structure Parser where
  path : String
  tokens : Tokens
  /-- All that has been reported so far. -/
  log : Array Diagnostic

namespace Parser

def ofText (path : String) (t : Text) : Parser :=
  let tokens := Tokens.ofText t
  ⟨path, tokens, (Lexer.ofText t).log ++ tokens.current.reports⟩

/-- The parser of the text that a sequence of reads delivers. -/
def ofReads (path : String) (reads : List Read) : Parser :=
  ofText path (.ofReads reads)

def ofString (s : String) : Parser :=
  ofReads "" [.bytes s.toUTF8]

def current (p : Parser) : Entry :=
  p.tokens.current

def here (p : Parser) : Location :=
  .ofPosition p.path p.current.pos

/-- The parser on the next token.  At the end of the text it stays. -/
def advance (p : Parser) : Parser :=
  match p.tokens.entries with
  | [] => p
  | _ :: rest =>
    let tokens := { p.tokens with entries := rest }
    { p with tokens := tokens, log := p.log ++ tokens.current.reports }

def report (p : Parser) (d : Diagnostic) : Parser :=
  { p with log := p.log.push d }

end Parser

abbrev Parse := EStateM SyntaxError Parser

namespace Parse

def kind : Parse TokenKind :=
  return (← get).current.token.kind

def here : Parse Location :=
  return (← get).here

def advance : Parse Token := do
  let p ← get
  set p.advance
  return p.current.token

def fail {α : Type} (what : Expectation) : Parse α := do
  let p ← get
  throw (.expected what p.current.token p.here)

def expect (k : TokenKind) : Parse Token := do
  if (← kind) = k then advance else fail (.token k)

def report (loc : Location) (problem : Problem) : Parse Unit :=
  modify (·.report ⟨loc.position, problem⟩)

def skip (k : TokenKind) : Parse Unit := do
  if (← kind) = k then
    let _ ← advance

/-- Runs `item` until it yields nothing.  An item takes a token at least, so the tokens
that are left, given in `left`, bound their number. -/
def manyAlong {α : Type} (item : Parse (Option α)) : List Entry → Parse (List α)
  | [] => do
    match ← item with
    | some a => return [a]
    | none => return []
  | _ :: left => do
    match ← item with
    | some a => return a :: (← manyAlong item left)
    | none => return []

/-- Runs `item` until it yields nothing, and collects what it yields. -/
def many {α : Type} (item : Parse (Option α)) : Parse (List α) := do
  manyAlong item (← get).tokens.entries

/-- A parse that contains itself.  Each level of nesting takes a token at least, so the
tokens that are left, given in the list, bound their number; past that bound there is no
token to go on from, and `stuck` says what is missing. -/
def nestAlong {α : Type} (stuck : Expectation) (level : Parse α → Parse α) :
    List Entry → Parse α
  | [] => level (fail stuck)
  | _ :: left => level (nestAlong stuck level left)

/-- The parse `p` with `p = level p`. -/
def nest {α : Type} (stuck : Expectation) (level : Parse α → Parse α) : Parse α := do
  nestAlong stuck level (← get).tokens.entries

def separator? : Parse (Option Token) := do
  if (← kind) = .semi then return some (← advance) else return none

def skipSeparators : Parse Unit := do
  let _ ← many separator?

/-- What stands in parentheses, where the current token is the opening one. -/
def parenthesized {α : Type} (inner : Parse α) : Parse α := do
  let _ ← advance
  let a ← inner
  let _ ← expect .parenRight
  return a

def name : Parse Name := do
  let loc ← here
  let token ← expect .ident
  return ⟨token.lexeme, loc⟩

def name? : Parse (Option Name) := do
  if (← kind) = .ident then return some (← name) else return none

def atOperator : Parse Bool := do
  match ← kind with
  | .symbol | .minus => return true
  | _ => return false

def operator : Parse Name := do
  if ← atOperator then
    let loc ← here
    let token ← advance
    return ⟨token.lexeme, loc⟩
  else fail .operator

end Parse
end FrontEnd
