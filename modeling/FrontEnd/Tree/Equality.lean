import FrontEnd.Tree.Basic

/-!
# Equality of trees

Two trees are the same if they have the same form, the same names and locations, and
numbers that are numerically equal.  It does not matter which fields share a type.
-/

namespace FrontEnd

mutual

def Expr.same : Expr → Expr → Bool
  | .call a, .call b => a.same b
  | .name a, .name b => a = b
  | .integer v l, .integer w k => v = w && l = k
  | .float v l, .float w k => v.same w && l = k
  | .bad l, .bad k => l = k
  | .field a, .field b => a.same b
  | .func a, .func b => a.same b
  | _, _ => false

def Expr.sameAll : List Expr → List Expr → Bool
  | [], [] => true
  | a :: as, b :: bs => a.same b && Expr.sameAll as bs
  | _, _ => false

def Call.same : Call → Call → Bool
  | ⟨f, as, d, l⟩, ⟨g, bs, e, k⟩ => f.same g && Expr.sameAll as bs && d = e && l = k

def Field.same : Field → Field → Bool
  | ⟨n, t, _, l⟩, ⟨m, u, _, k⟩ => n = m && t.same u && l = k

def Field.sameAll : List Field → List Field → Bool
  | [], [] => true
  | a :: as, b :: bs => a.same b && Field.sameAll as bs
  | _, _ => false

def Ty.same : Ty → Ty → Bool
  | .app a, .app b => a.same b
  | .func a, .func b => a.same b
  | _, _ => false

def Ty.sameAll : List Ty → List Ty → Bool
  | [], [] => true
  | a :: as, b :: bs => a.same b && Ty.sameAll as bs
  | _, _ => false

def FuncTy.same : FuncTy → FuncTy → Bool
  | ⟨c, as, l⟩, ⟨d, bs, k⟩ => Field.sameAll c d && Ty.sameAll as bs && l = k

end

def sameList {α : Type} (same : α → α → Bool) : List α → List α → Bool
  | [], [] => true
  | a :: as, b :: bs => same a b && sameList same as bs
  | _, _ => false

def sameOption {α : Type} (same : α → α → Bool) : Option α → Option α → Bool
  | none, none => true
  | some a, some b => same a b
  | _, _ => false

namespace Pattern

def same : Pattern → Pattern → Bool
  | name a, name b => a = b
  | field a, field b => a.same b
  | call a, call b => a.same b
  | integer v l, integer w k => v = w && l = k
  | float v l, float w k => v.same w && l = k
  | bad l, bad k => l = k
  | _, _ => false

end Pattern

namespace Signature

def same (a b : Signature) : Bool :=
  a.name = b.name && a.ty.same b.ty && a.loc = b.loc

end Signature

namespace Function

def same (a b : Function) : Bool :=
  a.name = b.name && sameOption Ty.same a.ty b.ty && sameList Pattern.same a.params b.params &&
    sameOption Expr.same a.body b.body && a.loc = b.loc

end Function

namespace Block

def same (a b : Block) : Bool :=
  a.name = b.name && a.params = b.params && sameList Signature.same a.members b.members &&
    a.loc = b.loc

end Block

namespace Decl

def same : Decl → Decl → Bool
  | imported a p l, imported b q k => a = b && p = q && l = k
  | exported a es l, exported b fs k => a = b && sameList Expr.same es fs && l = k
  | signature a, signature b => a.same b
  | function a, function b => a.same b
  | enumeration a, enumeration b => a.same b
  | sealed a, sealed b => a.same b
  | _, _ => false

end Decl
end FrontEnd
