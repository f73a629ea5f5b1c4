import FrontEnd.Grammar.Basic
import FrontEnd.Literal.Float

/-!
# Expressions and patterns

An expression is a literal or an application.  An application is a head with as many
arguments as follow it; the head is a name, or an operator or any expression in
parentheses.  Parentheses around an application without further arguments leave no trace
in the tree.
-/

namespace FrontEnd
namespace Parse

/-- What a literal was converted to: its value, unless it has none, and its place. -/
abbrev Converted (α : Type) := Option α × Location

/-- Takes a literal.  One that is too large is reported here; one that is malformed has
been reported when it was scanned. -/
def literal {α : Type} (value : String → Except LiteralError α) (tooLarge : String → Problem) :
    Parse (Converted α) := do
  let loc ← here
  let token ← advance
  match value token.lexeme with
  | .ok v => return (some v, loc)
  | .error .overflow =>
    report loc (tooLarge token.lexeme)
    return (none, loc)
  | .error .malformed => return (none, loc)

def integer : Parse (Converted Nat) :=
  literal Literal.integerValue .integerOverflow

def float : Parse (Converted Double) :=
  literal Literal.floatValue .floatOverflow

end Parse

namespace Expr

def ofInteger : Option Nat × Location → Expr
  | (some v, loc) => .integer v loc
  | (none, loc) => .bad loc

def ofFloat : Option Double × Location → Expr
  | (some v, loc) => .float v loc
  | (none, loc) => .bad loc

end Expr

namespace Pattern

def ofInteger : Option Nat × Location → Pattern
  | (some v, loc) => .integer v loc
  | (none, loc) => .bad loc

def ofFloat : Option Double × Location → Pattern
  | (some v, loc) => .float v loc
  | (none, loc) => .bad loc

end Pattern

namespace Parse

/-- An operator, of which `ofName` makes an expression, or else an expression. -/
def operatorOr (ofName : Name → Expr) (expr : Parse Expr) : Parse Expr := do
  if ← atOperator then return ofName (← operator) else expr

def head (expr : Parse Expr) : Parse Expr := do
  if (← kind) = .parenLeft then parenthesized (operatorOr .name expr)
  else return .name (← name)

/-- An argument, if the current token can begin one. -/
def argument? (expr : Parse Expr) : Parse (Option Expr) := do
  match ← kind with
  | .integer => return some (.ofInteger (← integer))
  | .float => return some (.ofFloat (← float))
  | .ident => return some (.call (← name).toCall)
  | .parenLeft => return some (← parenthesized (operatorOr (fun n => .call n.toCall) expr))
  | _ => return none

/-- A head and its arguments.  A call in parentheses that is given no arguments is that
call. -/
def application (expr : Parse Expr) : Parse Call := do
  let loc ← here
  let fn ← head expr
  let args ← many (argument? expr)
  match fn, args with
  | .call c, [] => return c
  | fn, args => return ⟨fn, args, false, loc⟩

def exprLevel (expr : Parse Expr) : Parse Expr := do
  match ← kind with
  | .integer => return .ofInteger (← integer)
  | .float => return .ofFloat (← float)
  | .ident | .parenLeft => return .call (← application expr)
  | _ => fail .expression

def expr : Parse Expr :=
  nest .expression exprLevel

def pattern? : Parse (Option Pattern) := do
  match ← kind with
  | .ident => return some (.name (← name))
  | .parenLeft => return some (.call (← parenthesized (application expr)))
  | .integer => return some (.ofInteger (← integer))
  | .float => return some (.ofFloat (← float))
  | _ => return none

end Parse
end FrontEnd
