import FrontEnd.Grammar.Type
import FrontEnd.Proofs.Grammar.Derivation
import FrontEnd.Proofs.Lexing.Spelling

/-!
# Leaves

A tree written out in order: its names, its values, and the signs and words that its
constructors stand for.  The leaf of a literal is its value, and that of a name tells an
identifier from an operator by its first rune.

Contexts are the one place where the order of the tree is not plainly that of the text,
since a context in front of another is merged with it; `Ty.leaves_withContext` says that
the leaves do not show it.
-/

namespace FrontEnd

/-- What a token means for the tree. -/
inductive Leaf where
  | token (t : Token)
  | integer (value : Int)
  | float (value : Double)
  | bad

namespace Leaf

def ofInteger : Option Nat → Leaf
  | some v => integer v
  | none => bad

def ofFloat : Option Double → Leaf
  | some v => float v
  | none => bad

def mark (k : TokenKind) : Leaf :=
  token ⟨k, k.spelling?.getD ""⟩

def doubleArrow : Leaf :=
  token ⟨.symbol, "=>"⟩

end Leaf

/-- The leaf of a token.  Parentheses and separators have none. -/
def Token.leaf? (t : Token) : Option Leaf :=
  match t.kind with
  | .parenLeft | .parenRight | .semi => none
  | .integer => some (.ofInteger (Literal.integerValue t.lexeme).toOption)
  | .float => some (.ofFloat (Literal.floatValue t.lexeme).toOption)
  | _ => some (.token t)

def Entry.leaves (es : List Entry) : List Leaf :=
  es.filterMap (·.token.leaf?)

def Name.leaf (n : Name) : Leaf :=
  .token ⟨.ofName n.value, n.value⟩

def Field.closingLeaves : Option (Nat × List Leaf) → List Leaf
  | some (_, type) => .mark .colon :: (type ++ [.doubleArrow])
  | none => []

def Field.prolongs (f : Field) : Option (Nat × List Leaf) → Bool
  | some (group, _) => f.group = group
  | none => false

mutual

def Expr.leaves : Expr → List Leaf
  | .call c => c.leaves
  | .name n => [n.leaf]
  | .integer v _ => [.integer v]
  | .float v _ => [.float v]
  | .bad _ => [.bad]
  | .field f => f.leaves
  | .func f => f.leaves

def Expr.leavesAll : List Expr → List Leaf
  | [] => []
  | x :: xs => x.leaves ++ Expr.leavesAll xs

def Call.leaves : Call → List Leaf
  | ⟨fn, args, _, _⟩ => fn.leaves ++ Expr.leavesAll args

def Field.leaves : Field → List Leaf
  | ⟨some n, ty, _, _⟩ => n.leaf :: .mark .colon :: ty.leaves
  | ⟨none, ty, _, _⟩ => ty.leaves

def Field.typeLeaves : Field → List Leaf
  | ⟨_, ty, _, _⟩ => ty.leaves

/-- The fields of a context, each run of fields that share a type with that type once.
`run` is the group and the type of the run that is open. -/
def Field.contextLeaves (run : Option (Nat × List Leaf)) : List Field → List Leaf
  | [] => Field.closingLeaves run
  | f :: fs =>
    if f.prolongs run then
      f.name.toList.map Name.leaf ++ Field.contextLeaves run fs
    else
      Field.closingLeaves run ++ (f.name.toList.map Name.leaf ++
        Field.contextLeaves (some (f.group, f.typeLeaves)) fs)

def Ty.leaves : Ty → List Leaf
  | .app c => c.leaves
  | .func f => f.leaves

def Ty.arrowLeaves : List Ty → List Leaf
  | [] => []
  | [t] => t.leaves
  | t :: u :: ts => t.leaves ++ .mark .arrow :: Ty.arrowLeaves (u :: ts)

def FuncTy.leaves : FuncTy → List Leaf
  | ⟨context, types, _⟩ => Field.contextLeaves none context ++ Ty.arrowLeaves types

end

def Pattern.leaves : Pattern → List Leaf
  | .name n => [n.leaf]
  | .field f => f.leaves
  | .call c => c.leaves
  | .integer v _ => [.integer v]
  | .float v _ => [.float v]
  | .bad _ => [.bad]

def Signature.leaves (s : Signature) : List Leaf :=
  s.name.leaf :: .mark .colon :: s.ty.leaves

def Function.leaves (f : Function) : List Leaf :=
  f.name.leaf :: (f.params.flatMap Pattern.leaves ++
    .mark .assign :: f.body.toList.flatMap Expr.leaves)

def Block.leaves (b : Block) : List Leaf :=
  b.name.leaf :: (b.params.map Name.leaf ++
    .mark .braceLeft :: (b.members.flatMap Signature.leaves ++ [.mark .braceRight]))

def Decl.leaves : Decl → List Leaf
  | .imported called _ _ => called.toList.map Name.leaf
  | .exported n exports _ => n.leaf :: exports.flatMap Expr.leaves
  | .signature s => s.leaves
  | .function f => f.leaves
  | .enumeration b => .mark .typeWord :: b.leaves
  | .sealed b => .mark .sealWord :: b.leaves

def File.leaves (f : File) : List Leaf :=
  f.decls.flatMap Decl.leaves

namespace Phrase

def leaves : Phrase → List Leaf
  | expr x | head x | argument x | typeArgument x => x.leaves
  | arguments xs | typeArguments xs => Expr.leavesAll xs
  | call c | typeCall c => c.leaves
  | type t | atom t => t.leaves
  | pattern p => p.leaves
  | patterns ps => ps.flatMap Pattern.leaves
  | declName n => [n.leaf]
  | names ns => ns.map Name.leaf
  | signature s => s.leaves
  | members ss => ss.flatMap Signature.leaves
  | block b => b.leaves
  | decl d => d.leaves
  | decls ds => ds.flatMap Decl.leaves

end Phrase

theorem Expr.leaves_ofInteger (v : Parse.Converted Nat) :
    (ofInteger v).leaves = [.ofInteger v.1] := by
  rcases v with ⟨_ | v, loc⟩ <;> simp [ofInteger, Leaf.ofInteger, leaves]

theorem Expr.leaves_ofFloat (v : Parse.Converted Double) :
    (ofFloat v).leaves = [.ofFloat v.1] := by
  rcases v with ⟨_ | v, loc⟩ <;> simp [ofFloat, Leaf.ofFloat, leaves]

theorem Pattern.leaves_ofInteger (v : Parse.Converted Nat) :
    (ofInteger v).leaves = [.ofInteger v.1] := by
  rcases v with ⟨_ | v, loc⟩ <;> rfl

theorem Pattern.leaves_ofFloat (v : Parse.Converted Double) :
    (ofFloat v).leaves = [.ofFloat v.1] := by
  rcases v with ⟨_ | v, loc⟩ <;> rfl

theorem Name.leaves_toCall (n : Name) : (Expr.call n.toCall).leaves = [n.leaf] := by
  simp [toCall, Expr.leaves, Call.leaves, Expr.leavesAll]

theorem Ty.leaves_toExpr (t : Ty) : t.toExpr.leaves = t.leaves := by
  cases t <;> simp [toExpr, Expr.leaves, leaves]

/-- A call in parentheses has the leaves of what it is applied to. -/
theorem Call.leaves_applied (fn : Expr) (args : List Expr) (loc : Location) :
    (applied fn args loc).leaves = fn.leaves ++ Expr.leavesAll args := by
  unfold applied
  split
  · simp [Expr.leaves, Expr.leavesAll]
  · rw [leaves]

namespace Field

/-- Where the fields of a context are in it makes no difference. -/
theorem contextLeaves_behind (n : Nat) (fs : List Field) (run : Option (Nat × List Leaf)) :
    contextLeaves (run.map fun r => (r.1 + n, r.2)) (fs.map (behind n)) =
      contextLeaves run fs := by
  induction fs generalizing run with
  | nil => cases run <;> rfl
  | cons f fs ih =>
    have hp : (f.behind n).prolongs (run.map fun r => (r.1 + n, r.2)) = f.prolongs run := by
      cases run with
      | none => rfl
      | some r => simp [prolongs, behind]
    have hc : closingLeaves (run.map fun r => (r.1 + n, r.2)) = closingLeaves run := by
      cases run <;> rfl
    have ht : (f.behind n).typeLeaves = f.typeLeaves := by cases f; simp [behind, typeLeaves]
    simp only [List.map_cons, contextLeaves, hp, hc, ht]
    by_cases h : f.prolongs run = true
    · rw [if_pos h, if_pos h, ih run]
      rfl
    · rw [if_neg h, if_neg h, ← ih (some (f.group, f.typeLeaves))]
      rfl

theorem contextLeaves_ofName (ty : Ty) (type : List Leaf) (ns : List Name) (fs : List Field) :
    contextLeaves (some (0, type)) (ns.map (ofName ty) ++ fs) =
      ns.map Name.leaf ++ contextLeaves (some (0, type)) fs := by
  induction ns with
  | nil => rfl
  | cons n ns ih =>
    show contextLeaves (some (0, type)) (ofName ty n :: (ns.map (ofName ty) ++ fs)) =
      n.leaf :: (ns.map Name.leaf ++ contextLeaves (some (0, type)) fs)
    rw [contextLeaves, if_pos (by rfl), ih]
    rfl

theorem contextLeaves_close {n : Nat} (hn : 0 < n) (type : List Leaf) (fs : List Field) :
    contextLeaves (some (0, type)) (fs.map (behind n)) =
      closingLeaves (some (0, type)) ++ contextLeaves none fs := by
  cases fs with
  | nil => simp [contextLeaves, closingLeaves]
  | cons f fs =>
    have hp : (f.behind n).prolongs (some (0, type)) = false := by
      show decide (f.group + n = 0) = false
      rw [decide_eq_false_iff_not]
      omega
    have hb := contextLeaves_behind n (f :: fs) none
    simp only [Option.map_none, List.map_cons] at hb ⊢
    rw [← hb, contextLeaves, hp, contextLeaves]
    rfl

theorem contextLeaves_front (ty : Ty) {ns : List Name} (hns : ns ≠ []) (fs : List Field) :
    contextLeaves none (ns.map (ofName ty) ++ fs.map (behind ns.length)) =
      ns.map Name.leaf ++ .mark .colon :: (ty.leaves ++ .doubleArrow :: contextLeaves none fs) := by
  cases ns with
  | nil => exact absurd rfl hns
  | cons n ns =>
    show contextLeaves none (ofName ty n ::
        (ns.map (ofName ty) ++ fs.map (behind (n :: ns).length))) = _
    have hlen : 0 < (n :: ns).length := Nat.succ_pos _
    rw [contextLeaves, if_neg (by simp [prolongs])]
    show n.leaf :: contextLeaves (some (0, (ofName ty n).typeLeaves)) _ = _
    have ht : (ofName ty n).typeLeaves = ty.leaves := by simp [ofName, typeLeaves]
    rw [ht]
    rw [contextLeaves_ofName, contextLeaves_close hlen]
    simp [closingLeaves]

end Field

theorem Ty.leaves_withContext (t shared : Ty) {ns : List Name} (hns : ns ≠ []) (loc : Location) :
    (t.withContext ns shared loc).leaves =
      ns.map Name.leaf ++ .mark .colon :: (shared.leaves ++ .doubleArrow :: t.leaves) := by
  cases t with
  | app c =>
    have h := Field.contextLeaves_front shared hns []
    rw [List.map_nil, List.append_nil] at h
    show Field.contextLeaves none (ns.map (Field.ofName shared)) ++ c.leaves = _
    rw [h]
    simp [Field.contextLeaves, Field.closingLeaves, Ty.leaves]
  | func f =>
    obtain ⟨context, types, l⟩ := f
    show Field.contextLeaves none (ns.map (Field.ofName shared) ++
      context.map (.behind ns.length)) ++ Ty.arrowLeaves types = _
    rw [Field.contextLeaves_front shared hns]
    simp [Ty.leaves, FuncTy.leaves]

theorem Expr.leaves_of_fieldName {x : Expr} {n : Name} (h : x.fieldName = .ok n) :
    x.leaves = [n.leaf] := by
  unfold fieldName at h
  split at h
  · cases h
    rw [Expr.leaves]
  · cases h
    rw [Expr.leaves, Call.leaves, Expr.leaves, Expr.leavesAll, List.append_nil]
  · cases h
  · cases h

theorem Expr.leavesAll_of_fieldNames {xs : List Expr} :
    ∀ {ns : List Name}, xs.mapM fieldName = .ok ns →
      ns.length = xs.length ∧ leavesAll xs = ns.map Name.leaf := by
  induction xs with
  | nil =>
    intro ns h
    cases h
    exact ⟨rfl, by simp [leavesAll]⟩
  | cons x xs ih =>
    intro ns h
    rw [List.mapM_cons] at h
    cases hx : x.fieldName with
    | error e => rw [hx] at h; cases h
    | ok n =>
      rw [hx] at h
      cases hxs : xs.mapM fieldName with
      | error e => rw [hxs] at h; cases h
      | ok ms =>
        rw [hxs] at h
        cases h
        obtain ⟨hlen, hl⟩ := ih hxs
        exact ⟨congrArg Nat.succ hlen, by simp [leavesAll, leaves_of_fieldName hx, hl]⟩

/-- What stands before the colon of a context is its names. -/
theorem Ty.leaves_of_fieldNames {t : Ty} {ns : List Name} (h : t.fieldNames = .ok ns) :
    ns ≠ [] ∧ t.leaves = ns.map Name.leaf := by
  cases t with
  | func f => cases h
  | app c =>
    obtain ⟨fn, args, dots, loc⟩ := c
    rw [fieldNames_app] at h
    obtain ⟨hlen, hl⟩ := Expr.leavesAll_of_fieldNames h
    constructor
    · rintro rfl
      cases hlen
    · rw [Ty.leaves, Call.leaves, ← hl, Expr.leavesAll]

end FrontEnd
