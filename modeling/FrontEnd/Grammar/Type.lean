import FrontEnd.Grammar.Basic

/-!
# Types

A type is a name applied to types, or an arrow between types, possibly after contexts.
What stands in an opening parenthesis is read as a type first; if a colon follows, it was
the names of a context.
-/

namespace FrontEnd

/-- The names of a context, read as the application of the first one to the others. -/
def Ty.fieldNames : Ty → Except SyntaxError (List Name)
  | .func f => .error (.invalidField f.loc)
  | .app c => (c.fn :: c.args).mapM fun
    | .name n => .ok n
    | .call ⟨.name n, [], _, _⟩ => .ok n
    | .call ⟨fn, [], _, _⟩ => .error (.invalidField fn.loc)
    | e => .error (.invalidField e.loc)

namespace Field

def ofName (ty : Ty) (n : Name) : Field :=
  ⟨some n, ty, 0, n.loc⟩

def behind (n : Nat) (f : Field) : Field :=
  { f with group := f.group + n }

end Field

namespace Ty

/-- The type `t` with fields of one type `shared` put in front of its context. -/
def withContext (t : Ty) (names : List Name) (shared : Ty) (loc : Location) : Ty :=
  let fields := names.map (Field.ofName shared)
  match t with
  | .func f => .func ⟨fields ++ f.context.map (.behind names.length), f.types, loc⟩
  | .app c => .func ⟨fields, [.app c], loc⟩

end Ty

namespace Parse

def typeArgument? (type : Parse Ty) : Parse (Option Expr) := do
  match ← kind with
  | .ident => return some (.call (← name).toCall)
  | .parenLeft => return some (← parenthesized type).toExpr
  | _ => return none

def typeApplication (type : Parse Ty) : Parse Call := do
  let loc ← here
  let fn ← name
  let args ← many (typeArgument? type)
  return ⟨.name fn, args, false, loc⟩

def contextArrow : Parse Unit := do
  let token := (← get).current.token
  if token.kind = .symbol && token.lexeme = "=>" then
    let _ ← advance
  else fail .contextArrow

/-- The rest of a type from the colon of a context on, where `inner` is what was read
before the colon and `loc` is where the context began. -/
def context (type : Parse Ty) (inner : Ty) (loc : Location) : Parse Ty := do
  let names ← MonadExcept.ofExcept inner.fieldNames
  let _ ← expect .colon
  let shared ← type
  let _ ← expect .parenRight
  contextArrow
  return (← type).withContext names shared loc

/-- The rest of a type after its first part: an arrow, or nothing. -/
def arrowTail (type : Parse Ty) (first : Ty) (loc : Location) : Parse Ty := do
  if (← kind) = .arrow then
    let _ ← advance
    return .func ⟨[], [first, ← type], loc⟩
  else return first

def typeLevel (type : Parse Ty) : Parse Ty := do
  let loc ← here
  match ← kind with
  | .ident => arrowTail type (.app (← typeApplication type)) loc
  | .parenLeft =>
    let _ ← advance
    let inner ← type
    if (← kind) = .colon then context type inner loc
    else
      let _ ← expect .parenRight
      arrowTail type inner loc
  | _ => fail .type

def type : Parse Ty :=
  nest .type typeLevel

end Parse
end FrontEnd
