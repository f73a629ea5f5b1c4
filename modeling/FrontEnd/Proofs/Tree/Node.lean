import FrontEnd.Grammar.Expression
import FrontEnd.Grammar.Type
import FrontEnd.Proofs.Lexing.Order

/-!
# The nodes of a tree

The tree types contain each other in many ways.  Where only locations matter a tree is
taken as its `Node`: what it is, where it stands and which nodes are right below it.
-/

namespace FrontEnd

/-- A part of a tree that has a location of its own. -/
inductive Node where
  | name (n : Name)
  | integer (value : Int) (loc : Location)
  | float (value : Double) (loc : Location)
  | bad (loc : Location)
  | call (c : Call)
  | field (f : Field)
  | func (f : FuncTy)
  | signature (s : Signature)
  | function (f : Function)
  | block (b : Block)
  | imported (called : Option Name) (path : String) (loc : Location)
  | exported (name : Name) (exports : List Expr) (loc : Location)

def Expr.node : Expr → Node
  | call c => .call c
  | name n => .name n
  | integer v loc => .integer v loc
  | float v loc => .float v loc
  | bad loc => .bad loc
  | field f => .field f
  | func f => .func f

def Ty.node : Ty → Node
  | app c => .call c
  | func f => .func f

def Pattern.node : Pattern → Node
  | name n => .name n
  | field f => .field f
  | call c => .call c
  | integer v loc => .integer v loc
  | float v loc => .float v loc
  | bad loc => .bad loc

def Decl.node : Decl → Node
  | imported called path loc => .imported called path loc
  | exported n exports loc => .exported n exports loc
  | signature s => .signature s
  | function f => .function f
  | enumeration b | sealed b => .block b

namespace Node

def loc : Node → Location
  | name n => n.loc
  | integer _ l | float _ l | bad l => l
  | call c => c.loc
  | field f => f.loc
  | func f => f.loc
  | signature s => s.loc
  | function f => f.loc
  | block b => b.loc
  | imported _ _ l => l
  | exported _ _ l => l

def pos (m : Node) : Position :=
  m.loc.position

def children : Node → List Node
  | name _ | integer _ _ | float _ _ | bad _ => []
  | call c => c.fn.node :: c.args.map Expr.node
  | field f => f.name.toList.map name ++ [f.ty.node]
  | func f => f.context.map field ++ f.types.map Ty.node
  | signature s => [name s.name, s.ty.node]
  | function f =>
    name f.name :: (f.ty.toList.map Ty.node ++
      (f.params.map Pattern.node ++ f.body.toList.map Expr.node))
  | block b => name b.name :: (b.params.map name ++ b.members.map signature)
  | imported called _ _ => called.toList.map name
  | exported n exports _ => name n :: exports.map Expr.node

/-- The nodes below a node that are written in a row. -/
def rows : Node → List (List Node)
  | call c => [c.fn.node :: c.args.map Expr.node]
  | func f => [f.context.map field, f.types.map Ty.node]
  | function f => [f.params.map Pattern.node ++ f.body.toList.map Expr.node]
  | block b => [b.members.map signature]
  | _ => []

def isLiteral : Node → Bool
  | integer _ _ | float _ _ | bad _ => true
  | _ => false

inductive Within (m : Node) : Node → Prop where
  | self : Within m m
  | child {n k : Node} (h : Within m n) (hk : k ∈ n.children) : Within m k

/-- All of the first node is written in front of all of the second. -/
def Precedes (m n : Node) : Prop :=
  ∀ j k, m.Within j → n.Within k → j.pos < k.pos

variable {m n : Node}

theorem within_iff : m.Within n ↔ n = m ∨ ∃ k ∈ m.children, k.Within n := by
  constructor
  · intro h
    induction h with
    | self => exact Or.inl rfl
    | @child j k h hk ih =>
      rcases ih with rfl | ⟨i, hi, hj⟩
      · exact Or.inr ⟨k, hk, .self⟩
      · exact Or.inr ⟨i, hi, hj.child hk⟩
  · rintro (rfl | ⟨k, hk, h⟩)
    · exact .self
    · induction h with
      | self => exact .child .self hk
      | child _ hj ih => exact ih.child hj

theorem Precedes.pos_lt (h : m.Precedes n) : m.pos < n.pos :=
  h m n .self .self

end Node

namespace File

def roots (f : File) : List Node :=
  f.package.toList.map .name ++ f.decls.map Decl.node

def Contains (f : File) (m : Node) : Prop :=
  ∃ r ∈ f.roots, r.Within m

end File

theorem Pattern.node_ofInteger (v : Parse.Converted Nat) :
    (ofInteger v).node = (Expr.ofInteger v).node := by
  rcases v with ⟨_ | v, loc⟩ <;> rfl

theorem Pattern.node_ofFloat (v : Parse.Converted Double) :
    (ofFloat v).node = (Expr.ofFloat v).node := by
  rcases v with ⟨_ | v, loc⟩ <;> rfl

theorem Ty.node_toExpr (t : Ty) : t.toExpr.node = t.node := by
  cases t <;> rfl

end FrontEnd
