import FrontEnd.Double.Shortest
import FrontEnd.Text.Quoted
import FrontEnd.Tree.Basic

/-!
# Trees as text

Calls are written with the function first and in parentheses, `(f a b)`, and function
types with the arrow first, `(-> a b)`.  A reference is written as what it refers to.
-/

namespace FrontEnd

namespace Field

def label (f : Field) : String :=
  match f.name with
  | some n => n.value
  | none => "_"

def continues (f : Field) : Option (Nat × String) → Bool
  | some (group, _) => f.group = group
  | none => false

def closing : Option (Nat × String) → String
  | some (_, type) => " : " ++ type ++ ") => "
  | none => ""

end Field

mutual

def Expr.text : Expr → String
  | .call c => c.text
  | .name n => n.value
  | .integer v _ => toString v
  | .float v _ => v.text
  | .bad _ => "<bad>"
  | .field f => f.text
  | .func f => f.text

def Expr.texts : List Expr → List String
  | [] => []
  | e :: es => e.text :: Expr.texts es

def Call.text : Call → String
  | ⟨fn, args, dots, _⟩ =>
    if args.isEmpty then fn.text
    else
      "(" ++ fn.text ++ " " ++ String.intercalate " " (Expr.texts args) ++
        (if dots then " ..." else "") ++ ")"

def Field.text : Field → String
  | ⟨some n, ty, _, _⟩ => "(" ++ n.value ++ " : " ++ ty.text ++ ")"
  | ⟨none, ty, _, _⟩ => ty.text

def Field.typeText : Field → String
  | ⟨_, ty, _, _⟩ => ty.text

/-- The fields of a context, each run of fields that share a type in parentheses with
that type written once.  `run` is the group and the type of the run that is open. -/
def Field.contextText (run : Option (Nat × String)) : List Field → String
  | [] => Field.closing run
  | f :: fs =>
    if f.continues run then " " ++ f.label ++ Field.contextText run fs
    else
      Field.closing run ++ "(" ++ f.label ++
        Field.contextText (some (f.group, f.typeText)) fs

def Ty.text : Ty → String
  | .app c => c.text
  | .func f => f.text

def Ty.texts : List Ty → List String
  | [] => []
  | t :: ts => t.text :: Ty.texts ts

def FuncTy.text : FuncTy → String
  | ⟨context, types, _⟩ =>
    Field.contextText none context ++ "(-> " ++ String.intercalate " " (Ty.texts types) ++ ")"

end

namespace Pattern

def text : Pattern → String
  | name n => n.value
  | field f => f.text
  | call c => c.text
  | integer v _ => toString v
  | float v _ => v.text
  | bad _ => "<bad>"

end Pattern

namespace Signature

def text (s : Signature) : String :=
  s.name.value ++ " : " ++ s.ty.text

end Signature

namespace Function

def text (f : Function) : String :=
  let head := " ".intercalate (f.name.value :: f.params.map Pattern.text)
  match f.body with
  | some e => head ++ " = " ++ e.text
  | none => head

end Function

namespace Block

def text (b : Block) : String :=
  " ".intercalate (b.name.value :: b.params.map Name.value) ++ " \x7b " ++
    "; ".intercalate (b.members.map Signature.text) ++ " \x7d"

end Block

namespace Decl

def text : Decl → String
  | imported none path _ => "import " ++ Quoted.string path
  | imported (some called) path _ => "import " ++ called.value ++ " " ++ Quoted.string path
  | exported n exports _ =>
    "module " ++ n.value ++ " (" ++ ", ".intercalate (exports.map Expr.text) ++ ")"
  | signature s => s.text
  | function f => f.text
  | enumeration b => "type " ++ b.text
  | sealed b => "seal " ++ b.text

end Decl
end FrontEnd
