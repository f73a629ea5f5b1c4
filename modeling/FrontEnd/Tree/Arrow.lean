import FrontEnd.Tree.Basic

/-!
# Chains of arrows

`a -> b -> c` is an arrow to an arrow.  `FuncTy.flatten` reads such a chain as the list
of its types, and `FuncTy.arrow` puts one more type in front.
-/

namespace FrontEnd

namespace FuncTy

/-- The type of functions between two types, located where the first of them is. -/
def arrow (source target : Ty) : FuncTy :=
  ⟨[], [source, target], source.loc⟩

end FuncTy

mutual

/-- The types of a chain of arrows.  The chain goes on through the last type of each
link, up to one that is no function type or has a context of its own. -/
def FuncTy.flatten : FuncTy → List Ty
  | ⟨_, types, _⟩ => Ty.flattenAll types

def Ty.flattenAll : List Ty → List Ty
  | [] => []
  | [t] => t.links
  | t :: u :: ts => t :: Ty.flattenAll (u :: ts)

def Ty.links : Ty → List Ty
  | .app c => [.app c]
  | .func f => if f.context.isEmpty then f.flatten else [.func f]

end

end FrontEnd
