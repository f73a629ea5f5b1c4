import FrontEnd.Proofs.Lexing.Words
import FrontEnd.Proofs.Tree.Relocate

/-!
# Surface trees

Programs as someone would build them who knows the language but not its parser: from
words, and with nothing in them that stands for a place in a text.  A surface tree has a
rendering, `tokens`, and a meaning, `tree`, which is the tree the parser is expected to
make of the rendering when all places are forgotten.

A rendering is made of tokens that carry the proof that they are scanned as they are
written, so that nothing has to be said of the words of a program later on.
-/

namespace FrontEnd
namespace Surface

/-! ## Words -/

/-- A token that its text alone is scanned as. -/
abbrev Written := { t : Token // t.Alone }

structure Word (k : TokenKind) where
  text : String
  alone : (Token.mk k text).Alone

def Word.written {k : TokenKind} (w : Word k) : Written :=
  ⟨⟨k, w.text⟩, w.alone⟩

def leftParen : Word .parenLeft := ⟨"(", by decide +kernel⟩

def rightParen : Word .parenRight := ⟨")", by decide +kernel⟩

def leftBrace : Word .braceLeft := ⟨"\x7b", by decide +kernel⟩

def rightBrace : Word .braceRight := ⟨"\x7d", by decide +kernel⟩

def typeWord : Word .typeWord := ⟨"type", by decide +kernel⟩

def sealWord : Word .sealWord := ⟨"seal", by decide +kernel⟩

def semi : Word .semi := ⟨";", by decide +kernel⟩

def colon : Word .colon := ⟨":", by decide +kernel⟩

def assign : Word .assign := ⟨"=", by decide +kernel⟩

def arrow : Word .arrow := ⟨"->", by decide +kernel⟩

def contextArrow : Word .symbol := ⟨"=>", by decide +kernel⟩

def parens (ts : List Written) : List Written :=
  leftParen.written :: (ts ++ [rightParen.written])

def parensUnless (bare : Bool) (ts : List Written) : List Written :=
  if bare then ts else parens ts

inductive Name where
  | ident (w : Word .ident)
  | operator (w : Word .symbol)

namespace Name

def text : Name → String
  | ident w => w.text
  | operator w => w.text

def tokens : Name → List Written
  | ident w => [w.written]
  | operator w => parens [w.written]

def tree (n : Name) : FrontEnd.Name :=
  ⟨n.text, .nowhere⟩

end Name

def Word.tree (w : Word .ident) : FrontEnd.Name :=
  ⟨w.text, .nowhere⟩

inductive Literal where
  | integer (w : Word .integer)
  | float (w : Word .float)

namespace Literal

def written : Literal → Written
  | integer w => w.written
  | float w => w.written

def tree : Literal → FrontEnd.Expr
  | integer w => .ofInteger ((FrontEnd.Literal.integerValue w.text).toOption, .nowhere)
  | float w => .ofFloat ((FrontEnd.Literal.floatValue w.text).toOption, .nowhere)

def pattern : Literal → FrontEnd.Pattern
  | integer w => .ofInteger ((FrontEnd.Literal.integerValue w.text).toOption, .nowhere)
  | float w => .ofFloat ((FrontEnd.Literal.floatValue w.text).toOption, .nowhere)

end Literal

/-! ## Expressions -/

mutual

inductive Expr where
  | literal (l : Literal)
  | call (c : Call)

/-- A head and its arguments.  A head that is a call has one argument at least. -/
inductive Call where
  | name (n : Name) (args : List Expr)
  | literal (l : Literal) (args : List Expr)
  | call (c : Call) (first : Expr) (rest : List Expr)

end

def Expr.isBare : Expr → Bool
  | .literal _ => true
  | .call (.name _ []) => true
  | _ => false

mutual

def Expr.tokens : Expr → List Written
  | .literal l => [l.written]
  | .call c => c.tokens

def Call.tokens : Call → List Written
  | .name n args => n.tokens ++ Expr.arguments args
  | .literal l args => parens [l.written] ++ Expr.arguments args
  | .call c first rest =>
    parens c.tokens ++ (parensUnless first.isBare first.tokens ++ Expr.arguments rest)

def Expr.arguments : List Expr → List Written
  | [] => []
  | x :: xs => parensUnless x.isBare x.tokens ++ Expr.arguments xs

end

mutual

def Expr.tree : Expr → FrontEnd.Expr
  | .literal l => l.tree
  | .call c => .call c.tree

def Call.tree : Call → FrontEnd.Call
  | .name n args => ⟨.name n.tree, Expr.trees args, false, .nowhere⟩
  | .literal l args => ⟨l.tree, Expr.trees args, false, .nowhere⟩
  | .call c first rest => ⟨.call c.tree, first.tree :: Expr.trees rest, false, .nowhere⟩

def Expr.trees : List Expr → List FrontEnd.Expr
  | [] => []
  | x :: xs => x.tree :: Expr.trees xs

end

/-! ## Types -/

inductive Ty where
  | app (n : Word .ident) (args : List Ty)
  | arrow (source target : Ty)
  /-- A type with fields of one type in front of it. -/
  | context (first : Word .ident) (others : List (Word .ident)) (shared result : Ty)

def Ty.isBare : Ty → Bool
  | .app _ [] => true
  | _ => false

def Ty.isApplied : Ty → Bool
  | .app _ _ => true
  | _ => false

mutual

def Ty.tokens : Ty → List Written
  | .app n args => n.written :: Ty.arguments args
  | .arrow source target =>
    parensUnless source.isApplied source.tokens ++ Surface.arrow.written :: target.tokens
  | .context first others shared result =>
    leftParen.written :: ((first.written :: others.map Word.written) ++ colon.written ::
      (shared.tokens ++ rightParen.written :: contextArrow.written :: result.tokens))

def Ty.arguments : List Ty → List Written
  | [] => []
  | t :: ts => parensUnless t.isBare t.tokens ++ Ty.arguments ts

end

mutual

def Ty.tree : Ty → FrontEnd.Ty
  | .app n args => .app ⟨.name n.tree, Ty.trees args, false, .nowhere⟩
  | .arrow source target => .func ⟨[], [source.tree, target.tree], .nowhere⟩
  | .context first others shared result =>
    result.tree.withContext (first.tree :: others.map Word.tree) shared.tree .nowhere

def Ty.trees : List Ty → List FrontEnd.Expr
  | [] => []
  | t :: ts => t.tree.toExpr :: Ty.trees ts

end

/-! ## Declarations -/

inductive Pattern where
  | ident (w : Word .ident)
  | literal (l : Literal)
  | call (c : Call)

namespace Pattern

def tokens : Pattern → List Written
  | ident w => [w.written]
  | literal l => [l.written]
  | call c => parens c.tokens

def tree : Pattern → FrontEnd.Pattern
  | ident w => .name w.tree
  | literal l => l.pattern
  | call c => .call c.tree

end Pattern

structure Signature where
  name : Name
  ty : Ty

namespace Signature

def tokens (g : Signature) : List Written :=
  g.name.tokens ++ colon.written :: g.ty.tokens

def tree (g : Signature) : FrontEnd.Signature :=
  ⟨g.name.tree, g.ty.tree, .nowhere⟩

end Signature

structure Block where
  name : Word .ident
  params : List (Word .ident)
  members : List Signature

namespace Block

def tokens (b : Block) : List Written :=
  b.name.written :: (b.params.map Word.written ++ leftBrace.written ::
    (b.members.flatMap (fun g => g.tokens ++ [semi.written]) ++ [rightBrace.written]))

def tree (b : Block) : FrontEnd.Block :=
  ⟨b.name.tree, b.params.map Word.tree, b.members.map Signature.tree, .nowhere⟩

end Block

inductive Decl where
  | signature (g : Signature)
  | function (n : Name) (params : List Pattern) (body : Expr)
  | enumeration (b : Block)
  | sealed (b : Block)

namespace Decl

def tokens : Decl → List Written
  | signature g => g.tokens
  | function n params body =>
    n.tokens ++ (params.flatMap Pattern.tokens ++ assign.written :: body.tokens)
  | enumeration b => typeWord.written :: b.tokens
  | sealed b => sealWord.written :: b.tokens

def tree : Decl → FrontEnd.Decl
  | signature g => .signature g.tree
  | function n params body =>
    .function ⟨n.tree, none, params.map Pattern.tree, some body.tree, .nowhere⟩
  | enumeration b => .enumeration b.tree
  | sealed b => .sealed b.tree

end Decl

def tokens (ds : List Decl) : List Written :=
  ds.flatMap fun d => d.tokens ++ [semi.written]

/-- The text of a program: its tokens with a single space between each two. -/
def print (ds : List Decl) : String :=
  " ".intercalate ((tokens ds).map fun t => t.1.lexeme)

/-- A head and arguments of each kind. -/
example :
    let f : Word .ident := ⟨"f", by decide +kernel⟩
    let x : Word .ident := ⟨"x", by decide +kernel⟩
    let plus : Word .symbol := ⟨"+", by decide +kernel⟩
    let one : Word .integer := ⟨"1", by decide +kernel⟩
    let sum : Call := .name (.operator plus) [.call (.name (.ident x) []), .literal (.integer one)]
    print [.function (.ident f) [.ident x] (.call (.name (.ident f) [.call sum]))] =
      "f x = f ( ( + ) x 1 ) ;" := by
  decide +kernel

end Surface
end FrontEnd
