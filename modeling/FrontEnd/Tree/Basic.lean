import FrontEnd.Double.Basic
import FrontEnd.Position

/-!
# Trees

What a text means once it has been parsed: expressions, types, patterns and
declarations, each with the location of the token that introduced it.  Types and
expressions contain each other, because a type application is a call and an argument of
a call may be a type.
-/

namespace FrontEnd

/-- An identifier, or an operator such as `<>`. -/
structure Name where
  value : String
  loc : Location
deriving DecidableEq, Repr, Inhabited

mutual

inductive Expr where
  | call (c : Call)
  | name (n : Name)
  | integer (value : Int) (loc : Location)
  | float (value : Double) (loc : Location)
  /-- A literal that has no value. -/
  | bad (loc : Location)
  | field (f : Field)
  | func (f : FuncTy)

/-- A function applied to arguments.  Without arguments it is a reference to the function
and no call. -/
structure Call where
  fn : Expr
  args : List Expr
  /-- An ellipsis follows the last argument. -/
  dots : Bool
  loc : Location

/-- A name with its type, or a type without a name.  Fields of one context that are
declared together share one type: they have the same `group`, which is the index of the
first of them in the context.  Outside a context it is zero. -/
structure Field where
  name : Option Name
  ty : Ty
  group : Nat
  loc : Location

inductive Ty where
  | app (c : Call)
  | func (f : FuncTy)

/-- A function type.  An arrow from `a` to `b` has the types `[a, b]` and arrows nest to
the right.  The context holds the fields that stand before the double arrows. -/
structure FuncTy where
  context : List Field
  types : List Ty
  loc : Location

end

inductive Pattern where
  | name (n : Name)
  | field (f : Field)
  | call (c : Call)
  | integer (value : Int) (loc : Location)
  | float (value : Double) (loc : Location)
  | bad (loc : Location)

/-- A name and its type, as in `double : Int -> Int`. -/
structure Signature where
  name : Name
  ty : Ty
  loc : Location

/-- A function by name, parameters and body.  One without a body is declared only. -/
structure Function where
  name : Name
  ty : Option Ty
  params : List Pattern
  body : Option Expr
  loc : Location

structure Block where
  name : Name
  params : List Name
  members : List Signature
  loc : Location

inductive Decl where
  /-- Another file, by its path and perhaps under another name. -/
  | imported (called : Option Name) (path : String) (loc : Location)
  /-- The name of this file and what it offers to others. -/
  | exported (name : Name) (exports : List Expr) (loc : Location)
  | signature (s : Signature)
  | function (f : Function)
  /-- A type by its constructors. -/
  | enumeration (b : Block)
  /-- A seal by its fields. -/
  | sealed (b : Block)

/-- All declarations of a text.  `eof` is where it ends. -/
structure File where
  package : Option Name
  decls : List Decl
  eof : Location
  loc : Location

namespace Name

def toCall (n : Name) : Call :=
  ⟨.name n, [], false, n.loc⟩

end Name

namespace Expr

def loc : Expr → Location
  | call c => c.loc
  | name n => n.loc
  | integer _ l => l
  | float _ l => l
  | bad l => l
  | field f => f.loc
  | func f => f.loc

def call? : Expr → Option Call
  | call c => some c
  | _ => none

end Expr

namespace Call

def isReference (c : Call) : Bool :=
  c.args.isEmpty

end Call

mutual

/-- The name that an expression comes down to as the head of a call. -/
def Expr.headName? : Expr → Option String
  | .name n => some n.value
  | .call c => if c.isReference then c.headName? else none
  | _ => none

/-- The name of the function of a call, if it is a plain name. -/
def Call.headName? : Call → Option String
  | ⟨fn, _, _, _⟩ => fn.headName?

end

namespace Ty

def loc : Ty → Location
  | app c => c.loc
  | func f => f.loc

def toExpr : Ty → Expr
  | app c => .call c
  | func f => .func f

end Ty

namespace Pattern

def loc : Pattern → Location
  | name n => n.loc
  | field f => f.loc
  | call c => c.loc
  | integer _ l => l
  | float _ l => l
  | bad l => l

/-- The names that are bound when a pattern meets an expression.  A name takes the whole
expression; nothing is taken apart. -/
def bindings : Pattern → Expr → List (String × Expr)
  | name n, e => [(n.value, e)]
  | field f, e => f.name.toList.map fun n => (n.value, e)
  | _, _ => []

end Pattern

namespace Function

def isForward (f : Function) : Bool :=
  f.body.isNone

end Function

namespace Decl

def loc : Decl → Location
  | imported _ _ l => l
  | exported _ _ l => l
  | signature s => s.loc
  | function f => f.loc
  | enumeration b => b.loc
  | sealed b => b.loc

def name? : Decl → Option Name
  | imported called _ _ => called
  | exported n _ _ => some n
  | signature s => some s.name
  | function f => some f.name
  | enumeration b => some b.name
  | sealed b => some b.name

end Decl
end FrontEnd
