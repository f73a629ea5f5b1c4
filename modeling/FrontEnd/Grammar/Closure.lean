import FrontEnd.Grammar.Declaration

/-!
# The grammar as sequences of steps

All productions are put together from a few single steps, one after the other, with choices
between them.  So what holds of the single steps and is kept by sequences holds of every
production, provided that it holds of the ones nested in it.

Only types are left open.  Where a type makes out the names of a context it may fail without
looking at a token, and what that means for a property depends on the property.
-/

namespace FrontEnd
namespace Parse

structure Closed (C : {α : Type} → Parse α → Prop) : Prop where
  pure {α : Type} (a : α) : C (pure a : Parse α)
  bind {α β : Type} {x : Parse α} {f : α → Parse β} (hx : C x) (hf : ∀ a, C (f a)) : C (x >>= f)
  get : C (get : Parse Parser)
  advance : C Parse.advance
  report (loc : Location) (problem : Problem) : C (Parse.report loc problem)
  fail {α : Type} (what : Expectation) : C (Parse.fail what : Parse α)

namespace Closed

variable {C : {α : Type} → Parse α → Prop} {α : Type}

theorem choice {c : Prop} [Decidable c] {x y : Parse α} (hx : C x) (hy : C y) :
    C (if c then x else y) := by
  split <;> assumption

section Steps

variable (h : Closed C)

include h

theorem kind : C Parse.kind :=
  h.bind h.get fun _ => h.pure _

theorem here : C Parse.here :=
  h.bind h.get fun _ => h.pure _

theorem expect (k : TokenKind) : C (Parse.expect k) :=
  h.bind h.kind fun _ => choice h.advance (h.fail _)

theorem skip (k : TokenKind) : C (Parse.skip k) :=
  h.bind h.kind fun _ => choice (h.bind h.advance fun _ => h.pure _) (h.pure _)

theorem separator? : C Parse.separator? :=
  h.bind h.kind fun _ => choice (h.bind h.advance fun _ => h.pure _) (h.pure _)

theorem name : C Parse.name :=
  h.bind h.here fun _ => h.bind (h.expect _) fun _ => h.pure _

theorem name? : C Parse.name? :=
  h.bind h.kind fun _ => choice (h.bind h.name fun _ => h.pure _) (h.pure _)

theorem atOperator : C Parse.atOperator :=
  h.bind h.kind fun k => by cases k <;> exact h.pure _

theorem operator : C Parse.operator :=
  h.bind h.atOperator fun _ => choice
    (h.bind h.here fun _ => h.bind h.advance fun _ => h.pure _) (h.fail _)

theorem literal {value : String → Except LiteralError α} {tooLarge : String → Problem} :
    C (Parse.literal value tooLarge) := by
  refine h.bind h.here fun loc => h.bind h.advance fun token => ?_
  cases value token.lexeme with
  | ok v => exact h.pure _
  | error e =>
    cases e with
    | malformed => exact h.pure _
    | overflow => exact h.bind (h.report _ _) fun _ => h.pure _

theorem contextArrow : C Parse.contextArrow :=
  h.bind h.get fun _ => choice (h.bind h.advance fun _ => h.pure _) (h.fail _)

theorem many {item : Parse (Option α)} (hitem : C item) : C (Parse.many item) := by
  have key : ∀ left : List Entry, C (manyAlong item left) := by
    intro left
    induction left with
    | nil => exact h.bind hitem fun a => by cases a <;> exact h.pure _
    | cons e left ih =>
      exact h.bind hitem fun a => by
        cases a with
        | none => exact h.pure _
        | some a => exact h.bind ih fun _ => h.pure _
  exact h.bind h.get fun _ => key _

theorem nestAlong {level : Parse α → Parse α} {stuck : Expectation}
    (hlevel : ∀ x, C x → C (level x)) (left : List Entry) :
    C (Parse.nestAlong stuck level left) := by
  induction left with
  | nil => exact hlevel _ (h.fail stuck)
  | cons e left ih => exact hlevel _ ih

theorem nest {level : Parse α → Parse α} {stuck : Expectation}
    (hlevel : ∀ x, C x → C (level x)) : C (Parse.nest stuck level) :=
  h.bind h.get fun _ => h.nestAlong hlevel _

theorem parenthesized {x : Parse α} (hx : C x) : C (Parse.parenthesized x) :=
  h.bind h.advance fun _ => h.bind hx fun _ => h.bind (h.expect _) fun _ => h.pure _

theorem skipSeparators : C Parse.skipSeparators :=
  h.bind (h.many h.separator?) fun _ => h.pure _

end Steps

section Expressions

variable {x : Parse Expr} (h : Closed C) (hx : C x)

include h

section

include hx

theorem operatorOr {ofName : Name → Expr} : C (Parse.operatorOr ofName x) :=
  h.bind h.atOperator fun _ => choice (h.bind h.operator fun _ => h.pure _) hx

theorem head : C (Parse.head x) :=
  h.bind h.kind fun _ => choice (h.parenthesized (h.operatorOr hx))
    (h.bind h.name fun _ => h.pure _)

theorem argument? : C (Parse.argument? x) :=
  h.bind h.kind fun k => by
    cases k with
    | integer | float => exact h.bind h.literal fun _ => h.pure _
    | ident => exact h.bind h.name fun _ => h.pure _
    | parenLeft => exact h.bind (h.parenthesized (h.operatorOr hx)) fun _ => h.pure _
    | _ => exact h.pure _

theorem application : C (Parse.application x) :=
  h.bind h.here fun _ => h.bind (h.head hx) fun fn =>
    h.bind (h.many (h.argument? hx)) fun args => by
      cases fn <;> cases args <;> exact h.pure _

theorem exprLevel : C (Parse.exprLevel x) :=
  h.bind h.kind fun k => by
    cases k with
    | integer | float => exact h.bind h.literal fun _ => h.pure _
    | ident | parenLeft => exact h.bind (h.application hx) fun _ => h.pure _
    | _ => exact h.fail _

end

theorem expr : C Parse.expr :=
  h.nest fun _ hx => h.exprLevel hx

theorem pattern? : C Parse.pattern? :=
  h.bind h.kind fun k => by
    cases k with
    | integer | float => exact h.bind h.literal fun _ => h.pure _
    | ident => exact h.bind h.name fun _ => h.pure _
    | parenLeft => exact h.bind (h.parenthesized (h.application h.expr)) fun _ => h.pure _
    | _ => exact h.pure _

end Expressions

section Types

variable {x : Parse Ty} (h : Closed C) (hx : C x)

include h hx

theorem typeArgument? : C (Parse.typeArgument? x) :=
  h.bind h.kind fun k => by
    cases k with
    | ident => exact h.bind h.name fun _ => h.pure _
    | parenLeft => exact h.bind (h.parenthesized hx) fun _ => h.pure _
    | _ => exact h.pure _

theorem typeApplication : C (Parse.typeApplication x) :=
  h.bind h.here fun _ => h.bind h.name fun _ => h.bind (h.many (h.typeArgument? hx)) fun _ =>
    h.pure _

theorem arrowTail (first : Ty) (loc : Location) : C (Parse.arrowTail x first loc) :=
  h.bind h.kind fun _ => choice
    (h.bind h.advance fun _ => h.bind hx fun _ => h.pure _) (h.pure _)

theorem contextTail (names : List Name) (loc : Location) :
    C (Parse.expect .colon >>= fun _ => x >>= fun shared => Parse.expect .parenRight >>= fun _ =>
      Parse.contextArrow >>= fun _ => x >>= fun t => Pure.pure (t.withContext names shared loc)) :=
  h.bind (h.expect _) fun _ => h.bind hx fun _ => h.bind (h.expect _) fun _ =>
    h.bind h.contextArrow fun _ => h.bind hx fun _ => h.pure _

end Types

section Declarations

variable (h : Closed C) (ht : C Parse.type)

include h

theorem declName : C Parse.declName :=
  h.bind h.kind fun _ => choice (h.parenthesized h.operator) h.name

theorem functionOf (n : Name) : C (Parse.functionOf n) :=
  h.bind (h.many h.pattern?) fun _ => h.bind (h.skip _) fun _ => h.bind h.expr fun _ => h.pure _

include ht

theorem signatureOf (n : Name) : C (Parse.signatureOf n) :=
  h.bind (h.expect _) fun _ => h.bind ht fun _ => h.pure _

theorem member? : C Parse.member? :=
  h.bind h.skipSeparators fun _ => h.bind h.kind fun _ => choice
    (h.bind h.advance fun _ => h.pure _)
    (h.bind h.declName fun _ => h.bind (h.signatureOf ht _) fun _ => h.pure _)

theorem blockAt (loc : Location) : C (Parse.blockAt loc) :=
  h.bind h.name fun _ => h.bind (h.many h.name?) fun _ => h.bind (h.expect _) fun _ =>
    h.bind (h.many (h.member? ht)) fun _ => h.pure _

theorem block : C Parse.block :=
  h.bind h.here fun loc => h.bind h.advance fun _ => h.blockAt ht loc

theorem declOf (n : Name) : C (Parse.declOf n) :=
  h.bind h.kind fun k => by
    cases k with
    | colon => exact h.bind (h.signatureOf ht n) fun _ => h.pure _
    | ident | assign | parenLeft | integer | float =>
      exact h.bind (h.functionOf n) fun _ => h.pure _
    | _ => exact h.fail _

theorem decl : C Parse.decl :=
  h.bind h.kind fun k => by
    cases k with
    | typeWord | sealWord => exact h.bind (h.block ht) fun _ => h.pure _
    | ident | parenLeft => exact h.bind h.declName (h.declOf ht)
    | _ => exact h.fail _

theorem decl? : C Parse.decl? :=
  h.bind h.skipSeparators fun _ => h.bind h.kind fun _ => choice (h.pure _)
    (h.bind (h.decl ht) fun _ => h.pure _)

theorem file : C Parse.file :=
  h.bind h.here fun _ => h.bind (h.many (h.decl? ht)) fun _ => h.bind h.here fun _ => h.pure _

end Declarations

end Closed
end Parse
end FrontEnd
