import FrontEnd.Grammar.Declaration
import FrontEnd.Proofs.Grammar.Soundness

/-!
# The shapes of trees

The tree types allow more than the grammar makes.  A body or an argument is a literal or
a call, and what can stand inside a type is kept to types: a type application has a name
as its head, an arrow has two sides, and a type with only one part has a context in front
of it.  Trees of which this is true are called regular here; `Parse.regular` says that no
others are ever returned.
-/

namespace FrontEnd

def Expr.isName : Expr → Bool
  | .name _ => true
  | _ => false

def Expr.isCall (x : Expr) : Bool :=
  x.call?.isSome

mutual

/-- Whether an expression may be a body or an argument. -/
def Expr.isTerm : Expr → Bool
  | .call c => c.isTerm
  | .integer _ _ | .float _ _ | .bad _ => true
  | .name _ | .field _ | .func _ => false

def Expr.areTerms : List Expr → Bool
  | [] => true
  | x :: xs => x.isTerm && Expr.areTerms xs

def Call.isTerm : Call → Bool
  | ⟨fn, args, dots, _⟩ =>
    !dots && (fn.isName || fn.isTerm) && !(args.isEmpty && fn.isCall) && Expr.areTerms args

end

mutual

def Expr.isTypeTerm : Expr → Bool
  | .call c => c.isTypeTerm
  | .func f => f.isRegular
  | .name _ | .integer _ _ | .float _ _ | .bad _ | .field _ => false

def Expr.areTypeTerms : List Expr → Bool
  | [] => true
  | x :: xs => x.isTypeTerm && Expr.areTypeTerms xs

def Call.isTypeTerm : Call → Bool
  | ⟨fn, args, dots, _⟩ => !dots && fn.isName && Expr.areTypeTerms args

/-- A field of a context stands where its name does. -/
def Field.isRegular : Field → Bool
  | ⟨name, ty, _, loc⟩ => name.any (·.loc = loc) && ty.isRegular

def Field.areRegular : List Field → Bool
  | [] => true
  | f :: fs => f.isRegular && Field.areRegular fs

def Ty.isRegular : Ty → Bool
  | .app c => c.isTypeTerm
  | .func f => f.isRegular

def Ty.areRegular : List Ty → Bool
  | [] => true
  | t :: ts => t.isRegular && Ty.areRegular ts

def FuncTy.isRegular : FuncTy → Bool
  | ⟨context, types, _⟩ =>
    (match types with
      | [_, _] => true
      | [.app _] => !context.isEmpty
      | _ => false) &&
      Field.areRegular context && Ty.areRegular types

end

def Pattern.isRegular : Pattern → Bool
  | .call c => c.isTerm
  | .name _ | .integer _ _ | .float _ _ | .bad _ => true
  | .field _ => false

def Function.isRegular (f : Function) : Bool :=
  f.ty.isNone && f.body.any Expr.isTerm && f.params.all Pattern.isRegular

def Block.isRegular (b : Block) : Bool :=
  b.members.all (·.ty.isRegular)

def Decl.isRegular : Decl → Bool
  | .imported _ _ _ | .exported _ _ _ => false
  | .signature s => s.ty.isRegular
  | .function f => f.isRegular
  | .enumeration b | .sealed b => b.isRegular

def Phrase.isRegular : Phrase → Bool
  | expr x | argument x => x.isTerm
  | head x => x.isName || x.isTerm
  | arguments xs => Expr.areTerms xs
  | call c => c.isTerm
  | type t | atom t => t.isRegular
  | typeCall c => c.isTypeTerm
  | typeArgument x => x.isTypeTerm
  | typeArguments xs => Expr.areTypeTerms xs
  | pattern p => p.isRegular
  | patterns ps => ps.all Pattern.isRegular
  | declName _ | names _ => true
  | signature s => s.ty.isRegular
  | members ss => ss.all (·.ty.isRegular)
  | block b => b.isRegular
  | decl d => d.isRegular
  | decls ds => ds.all Decl.isRegular

theorem Expr.isTerm_ofInteger (v : Parse.Converted Nat) : (ofInteger v).isTerm = true := by
  rcases v with ⟨_ | v, loc⟩ <;> simp [ofInteger, isTerm]

theorem Expr.isTerm_ofFloat (v : Parse.Converted Double) : (ofFloat v).isTerm = true := by
  rcases v with ⟨_ | v, loc⟩ <;> simp [ofFloat, isTerm]

theorem Pattern.isRegular_ofInteger (v : Parse.Converted Nat) :
    (ofInteger v).isRegular = true := by
  rcases v with ⟨_ | v, loc⟩ <;> rfl

theorem Pattern.isRegular_ofFloat (v : Parse.Converted Double) :
    (ofFloat v).isRegular = true := by
  rcases v with ⟨_ | v, loc⟩ <;> rfl

theorem Name.isTerm_toCall (n : Name) : n.toCall.isTerm = true := by
  simp [toCall, Call.isTerm, Expr.isName, Expr.isCall, Expr.call?, Expr.areTerms]

theorem Name.isTypeTerm_toCall (n : Name) : n.toCall.isTypeTerm = true := by
  simp [toCall, Call.isTypeTerm, Expr.isName, Expr.areTypeTerms]

theorem Ty.isTypeTerm_toExpr (t : Ty) : t.toExpr.isTypeTerm = t.isRegular := by
  cases t <;> simp [toExpr, Expr.isTypeTerm, isRegular]

/-- A call in parentheses without arguments is that call, so no call of a call is left
without arguments. -/
theorem Call.isTerm_applied {fn : Expr} {args : List Expr} (loc : Location)
    (hf : (fn.isName || fn.isTerm) = true) (ha : Expr.areTerms args = true) :
    (applied fn args loc).isTerm = true := by
  unfold applied
  split
  · simpa [Expr.isName, Expr.isTerm] using hf
  · next hne =>
    have hcall : (args.isEmpty && fn.isCall) = false := by
      cases args with
      | nil =>
        cases fn with
        | call c => exact absurd rfl (hne c rfl)
        | _ => rfl
      | cons x xs => rfl
    simp [isTerm, hf, hcall, ha]

theorem Field.areRegular_append (fs gs : List Field) :
    areRegular (fs ++ gs) = (areRegular fs && areRegular gs) := by
  induction fs with
  | nil => simp [areRegular]
  | cons f fs ih => simp [areRegular, ih, Bool.and_assoc]

theorem Field.areRegular_ofName {ty : Ty} (h : ty.isRegular = true) (ns : List Name) :
    areRegular (ns.map (ofName ty)) = true := by
  induction ns with
  | nil => simp [areRegular]
  | cons n ns ih => simp [areRegular, isRegular, ofName, h, ih]

theorem Field.areRegular_behind (n : Nat) (fs : List Field) :
    areRegular (fs.map (behind n)) = areRegular fs := by
  induction fs with
  | nil => rfl
  | cons f fs ih =>
    obtain ⟨name, ty, group, loc⟩ := f
    simp [areRegular, isRegular, behind, ih]

theorem Ty.isRegular_withContext {t shared : Ty} {ns : List Name} (loc : Location)
    (ht : t.isRegular = true) (hs : shared.isRegular = true) (hns : ns ≠ []) :
    (t.withContext ns shared loc).isRegular = true := by
  have hfields := Field.areRegular_ofName hs ns
  have hempty : (ns.map (Field.ofName shared)).isEmpty = false := by
    cases ns with
    | nil => exact absurd rfl hns
    | cons n ns => rfl
  cases t with
  | app c =>
    simp only [isRegular] at ht
    simp [withContext, isRegular, FuncTy.isRegular, areRegular, hfields, hempty, ht]
  | func f =>
    obtain ⟨context, types, l⟩ := f
    simp only [isRegular, FuncTy.isRegular, Bool.and_eq_true] at ht
    obtain ⟨⟨hshape, hcontext⟩, htypes⟩ := ht
    simp only [withContext, isRegular, FuncTy.isRegular, Field.areRegular_append, hfields,
      Field.areRegular_behind, hcontext, htypes, Bool.and_true]
    -- The types are what they were, and a context that was not empty still is not.
    split at hshape
    · rfl
    · simp [hns]
    · cases hshape

/-- Every phrase of the grammar is regular. -/
theorem Derives.isRegular {path : String} {ph : Phrase} {es : List Entry}
    (h : Derives path ph es) : ph.isRegular = true := by
  induction h with
  | integer h | argumentInteger h => exact Expr.isTerm_ofInteger _
  | float h | argumentFloat h => exact Expr.isTerm_ofFloat _
  | application h ih =>
    rw [Phrase.isRegular, Expr.isTerm]
    exact ih
  | headName h | headOperator hl ho hr => rfl
  | headNested hl h hr ih => exact Bool.or_eq_true_iff.2 (Or.inr ih)
  | argumentName h | argumentOperator hl ho hr =>
    rw [Phrase.isRegular, Expr.isTerm]
    exact Name.isTerm_toCall _
  | argumentNested hl h hr ih => exact ih
  | noArguments => rw [Phrase.isRegular, Expr.areTerms]
  | moreArguments h hs ih ihs =>
    simpa [Phrase.isRegular, Expr.areTerms] using And.intro ih ihs
  | call h hs ih ihs => exact Call.isTerm_applied _ ih ihs
  | typeCall h hs ihs =>
    simpa [Phrase.isRegular, Call.isTypeTerm, Expr.isName] using ihs
  | typeArgumentName h =>
    rw [Phrase.isRegular, Expr.isTypeTerm]
    exact Name.isTypeTerm_toCall _
  | typeArgumentNested hl h hr ih => exact (Ty.isTypeTerm_toExpr _).trans ih
  | noTypeArguments => rw [Phrase.isRegular, Expr.areTypeTerms]
  | moreTypeArguments h hs ih ihs =>
    simpa [Phrase.isRegular, Expr.areTypeTerms] using And.intro ih ihs
  | atomCall h ih =>
    rw [Phrase.isRegular, Ty.isRegular]
    exact ih
  | atomNested hl h hr ih => exact ih
  | typeAtom h ih => exact ih
  | arrow ht ha hu iht ihu =>
    simpa [Phrase.isRegular, Ty.isRegular, FuncTy.isRegular, Field.areRegular, Ty.areRegular]
      using And.intro iht ihu
  | context hl hi hn hc hs hr ha hu ihi ihs ihu =>
    exact Ty.isRegular_withContext _ ihu ihs (Ty.fieldNames_ne_nil hn)
  | patternName h => rfl
  | patternCall hl h hr ih => exact ih
  | patternInteger h => exact Pattern.isRegular_ofInteger _
  | patternFloat h => exact Pattern.isRegular_ofFloat _
  | declIdent h | declOperator hl ho hr => rfl
  | noNames | moreNames h hs ih => rfl
  | signature hn hc ht ihn iht => exact iht
  | noPatterns | noMembers h | noDecls h => rfl
  | morePatterns h hs ih ihs => simpa [Phrase.isRegular] using And.intro ih ihs
  | moreMembers h hs hss ih ihs => simpa [Phrase.isRegular] using And.intro ih ihs
  | block h hns hl hss hr ihns ihss => exact ihss
  | declSignature h ih => exact ih
  | function hn hp ha hx ihn ihp ihx =>
    simpa [Phrase.isRegular, Decl.isRegular, Function.isRegular] using And.intro ihx ihp
  | enumeration hw h hb ih | sealed hw h hb ih => exact ih
  | moreDecls h hd hds ih ihs => simpa [Phrase.isRegular] using And.intro ih ihs

/-- All trees that are read are regular, wherever in a text the reading begins. -/
theorem Parse.regular (s t : Parser) :
    (∀ f, Parse.file s = .ok f t → f.decls.all Decl.isRegular = true) ∧
    (∀ d, Parse.decl s = .ok d t → d.isRegular = true) ∧
    (∀ x, Parse.expr s = .ok x t → x.isTerm = true) ∧
    (∀ a, Parse.type s = .ok a t → a.isRegular = true) := by
  refine ⟨fun f h => ?_, fun d h => ?_, fun x h => ?_, fun a h => ?_⟩
  · obtain ⟨es, -, hd, -⟩ := yields_file h
    exact hd.isRegular
  · obtain ⟨es, -, hd⟩ := yields_decl s t d h
    exact hd.isRegular
  · obtain ⟨es, -, hd⟩ := yields_expr s t x h
    exact hd.isRegular
  · obtain ⟨es, -, hd⟩ := yields_type s t a h
    exact hd.isRegular

def Parse.accepts {α : Type} (x : Parse α) (s : Parser) : Bool :=
  match x s with
  | .ok _ _ => true
  | .error _ _ => false

theorem Parse.accepts_iff {α : Type} {x : Parse α} {s : Parser} :
    x.accepts s = true ↔ ∃ a t, x s = .ok a t := by
  unfold accepts
  cases x s <;> simp

theorem Parse.ok_after {α : Type} {x : Parse α} {s : Parser} (h : x.accepts s = true) :
    ∃ a, x s = .ok a (x.after s) := by
  obtain ⟨a, t, hx⟩ := accepts_iff.1 h
  refine ⟨a, ?_⟩
  unfold after
  rw [hx]

def Parse.readsAll {α : Type} (x : Parse α) (s : Parser) : Bool :=
  match x s with
  | .ok _ t => t.current.Is .eof
  | .error _ _ => false

theorem Parse.readsAll_iff {α : Type} {x : Parse α} {s : Parser} :
    x.readsAll s = true ↔ ∃ a t, x s = .ok a t ∧ t.current.Is .eof := by
  unfold readsAll
  cases x s with
  | error e t => exact ⟨nofun, nofun⟩
  | ok a t =>
    refine ⟨fun h => ⟨a, t, rfl, of_decide_eq_true h⟩, ?_⟩
    rintro ⟨b, u, h, hu⟩
    cases h
    exact decide_eq_true hu

theorem Parse.regular_nested :
    (∃ f t,
      Parse.file (.ofString "f (g x) = ((f)) (x) 1e999\ntype T \x7b(+) : T -> T\x7d") = .ok f t ∧
      f.decls.all Decl.isRegular = true) ∧
    (∃ d t, Parse.decl (.ofString "seal S a \x7bx : M (a -> S); y : a\x7d") = .ok d t ∧
      d.isRegular = true) ∧
    (∃ x t, Parse.expr (.ofString "((f x)) (g) 0b2") = .ok x t ∧ x.isTerm = true) ∧
    (∃ a t, Parse.type (.ofString "(k l : Key) => (v : M) => v (a -> k)") = .ok a t ∧
      a.isRegular = true) := by
  have hf : Parse.file.accepts
      (.ofString "f (g x) = ((f)) (x) 1e999\ntype T \x7b(+) : T -> T\x7d") := by
    decide +kernel
  have hd : Parse.decl.accepts (.ofString "seal S a \x7bx : M (a -> S); y : a\x7d") := by
    decide +kernel
  have hx : Parse.expr.accepts (.ofString "((f x)) (g) 0b2") := by decide +kernel
  have ha : Parse.type.accepts (.ofString "(k l : Key) => (v : M) => v (a -> k)") := by
    decide +kernel
  obtain ⟨f, t, hf⟩ := accepts_iff.1 hf
  obtain ⟨d, u, hd⟩ := accepts_iff.1 hd
  obtain ⟨x, v, hx⟩ := accepts_iff.1 hx
  obtain ⟨a, w, ha⟩ := accepts_iff.1 ha
  exact ⟨⟨f, t, hf, (regular _ t).1 f hf⟩, ⟨d, u, hd, (regular _ u).2.1 d hd⟩,
    ⟨x, v, hx, (regular _ v).2.2.1 x hx⟩, ⟨a, w, ha, (regular _ w).2.2.2 a ha⟩⟩

end FrontEnd
