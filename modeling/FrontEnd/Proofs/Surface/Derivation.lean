import FrontEnd.Proofs.Grammar.Derivation
import FrontEnd.Proofs.Surface.Syntax

/-!
# Surface trees in the grammar

The rendering of a surface tree has a derivation, and the tree of that derivation is the
meaning of the surface tree up to places.  Types and expressions are followed as they
are built, so the parentheses of a rendering are met where the grammar asks for them.
-/

namespace FrontEnd
namespace Surface

def away (_ : Location) : Location := .nowhere

def Shows (es : List Entry) (ts : List Written) : Prop :=
  es.map (·.token) = ts.map (·.1)

namespace Shows

variable {es : List Entry} {ts us : List Written} {k : TokenKind} {w : Word k}

theorem nil (h : Shows es []) : es = [] :=
  List.map_eq_nil_iff.1 h

theorem cons (h : Shows es (w.written :: ts)) :
    ∃ e fs, es = e :: fs ∧ e.token = ⟨k, w.text⟩ ∧ Shows fs ts := by
  obtain ⟨e, fs, he, ht, hfs⟩ := List.map_eq_cons_iff.1 h
  exact ⟨e, fs, he, ht, hfs⟩

theorem one (h : Shows es [w.written]) : ∃ e, es = [e] ∧ e.token = ⟨k, w.text⟩ := by
  obtain ⟨e, fs, rfl, ht, hfs⟩ := h.cons
  rw [hfs.nil]
  exact ⟨e, rfl, ht⟩

theorem append (h : Shows es (ts ++ us)) :
    ∃ fs gs, es = fs ++ gs ∧ Shows fs ts ∧ Shows gs us := by
  unfold Shows at h
  rw [List.map_append] at h
  exact List.map_eq_append_iff.1 h

theorem parens (h : Shows es (parens ts)) :
    ∃ l fs r, es = l :: (fs ++ [r]) ∧ l.Is .parenLeft ∧ r.Is .parenRight ∧ Shows fs ts := by
  obtain ⟨l, es, rfl, hl, h⟩ := h.cons
  obtain ⟨fs, gs, rfl, hfs, h⟩ := h.append
  obtain ⟨r, rfl, hr⟩ := h.one
  exact ⟨l, fs, r, rfl, congrArg Token.kind hl, congrArg Token.kind hr, hfs⟩

theorem operator {w : Word .symbol} (h : Shows es (Surface.parens [w.written])) :
    ∃ l o r, es = [l, o, r] ∧ l.Is .parenLeft ∧ o.IsOperator ∧ r.Is .parenRight ∧
      o.token = ⟨.symbol, w.text⟩ := by
  obtain ⟨l, fs, r, rfl, hl, hr, hfs⟩ := h.parens
  obtain ⟨o, rfl, ho⟩ := hfs.one
  exact ⟨l, o, r, rfl, hl, Or.inl (congrArg Token.kind ho), hr, ho⟩

end Shows

/-- Whether tokens are read as the tree `a` up to places, wherever they stand. -/
def Spells {α : Type} (phrase : α → Phrase) (move : α → α) (a : α) (ts : List Written) : Prop :=
  ∀ (path : String) (es : List Entry), Shows es ts → ∃ b, Derives path (phrase b) es ∧ move b = a

namespace Spells

variable {α β : Type} {phrase : α → Phrase} {phrase' : β → Phrase} {phrases : List α → Phrase}
  {move : α → α} {move' : β → β} {a : α} {as : List α} {ts us : List Written}

theorem whole (h : Spells phrase move a ts) (g : α → β)
    (hg : ∀ b, move' (g b) = g (move b))
    (hd : ∀ {path es b}, Derives path (phrase b) es → Derives path (phrase' (g b)) es) :
    Spells phrase' move' (g a) ts := by
  intro path es hes
  obtain ⟨b, hb, ha⟩ := h path es hes
  exact ⟨g b, hd hb, (hg b).trans (congrArg g ha)⟩

theorem nested (h : Spells phrase move a ts) (g : α → β)
    (hg : ∀ b, move' (g b) = g (move b))
    (hd : ∀ {path es b} {l r : Entry}, l.Is .parenLeft → Derives path (phrase b) es →
      r.Is .parenRight → Derives path (phrase' (g b)) (l :: (es ++ [r]))) :
    Spells phrase' move' (g a) (parens ts) := by
  intro path es hes
  obtain ⟨l, fs, r, rfl, hl, hr, hfs⟩ := hes.parens
  obtain ⟨b, hb, ha⟩ := h path fs hfs
  exact ⟨g b, hd hl hb hr, (hg b).trans (congrArg g ha)⟩

theorem none (hd : ∀ {path}, Derives path (phrases []) []) :
    Spells phrases (List.map move) [] [] := by
  intro path es hes
  rw [hes.nil]
  exact ⟨[], hd, rfl⟩

theorem more (h : Spells phrase move a ts) (hs : Spells phrases (List.map move) as us)
    (hd : ∀ {path es fs b bs}, Derives path (phrase b) es → Derives path (phrases bs) fs →
      Derives path (phrases (b :: bs)) (es ++ fs)) :
    Spells phrases (List.map move) (a :: as) (ts ++ us) := by
  intro path es hes
  obtain ⟨fs, gs, rfl, hfs, hgs⟩ := hes.append
  obtain ⟨b, hb, ha⟩ := h path fs hfs
  obtain ⟨bs, hbs, has⟩ := hs path gs hgs
  refine ⟨b :: bs, hd hb hbs, ?_⟩
  rw [List.map_cons, ha, has]

end Spells

/-! ## Names and literals -/

theorem relocate_name {e : Entry} {k : TokenKind} {text : String} (path : String)
    (h : e.token = ⟨k, text⟩) : (e.name path).relocate away = ⟨text, .nowhere⟩ := by
  unfold Entry.name FrontEnd.Name.relocate
  rw [h]
  rfl

namespace Name

theorem spells_head (n : Name) :
    Spells .head (FrontEnd.Expr.relocate away) (.name n.tree) n.tokens := by
  intro path es h
  cases n with
  | ident w =>
    obtain ⟨e, rfl, he⟩ := h.one
    refine ⟨_, .headName (congrArg Token.kind he), ?_⟩
    rw [FrontEnd.Expr.relocate, relocate_name path he]
    rfl
  | operator w =>
    obtain ⟨l, o, r, rfl, hl, hop, hr, ho⟩ := h.operator
    refine ⟨_, .headOperator hl hop hr, ?_⟩
    rw [FrontEnd.Expr.relocate, relocate_name path ho]
    rfl

theorem spells_argument (n : Name) :
    Spells .argument (FrontEnd.Expr.relocate away) (.call n.tree.toCall) n.tokens := by
  intro path es h
  cases n with
  | ident w =>
    obtain ⟨e, rfl, he⟩ := h.one
    refine ⟨_, .argumentName (congrArg Token.kind he), ?_⟩
    rw [FrontEnd.Expr.relocate, FrontEnd.Name.relocate_toCall, relocate_name path he]
    rfl
  | operator w =>
    obtain ⟨l, o, r, rfl, hl, hop, hr, ho⟩ := h.operator
    refine ⟨_, .argumentOperator hl hop hr, ?_⟩
    rw [FrontEnd.Expr.relocate, FrontEnd.Name.relocate_toCall, relocate_name path ho]
    rfl

theorem spells_declName (n : Name) :
    Spells .declName (FrontEnd.Name.relocate away) n.tree n.tokens := by
  intro path es h
  cases n with
  | ident w =>
    obtain ⟨e, rfl, he⟩ := h.one
    exact ⟨_, .declIdent (congrArg Token.kind he), relocate_name path he⟩
  | operator w =>
    obtain ⟨l, o, r, rfl, hl, hop, hr, ho⟩ := h.operator
    exact ⟨_, .declOperator hl hop hr, relocate_name path ho⟩

end Name

namespace Literal

theorem away_converted {α : Type} {e : Entry} {k : TokenKind} {text : String}
    (value : String → Except LiteralError α) (path : String) (h : e.token = ⟨k, text⟩) :
    ((e.converted value path).1, away (e.converted value path).2) =
      ((value text).toOption, .nowhere) := by
  unfold Entry.converted
  rw [h]
  rfl

theorem relocate_integer {e : Entry} {w : Word .integer} (path : String)
    (h : e.token = ⟨.integer, w.text⟩) :
    (FrontEnd.Expr.ofInteger (e.integer path)).relocate away = (Literal.integer w).tree :=
  (FrontEnd.Expr.relocate_ofInteger _).trans
    (congrArg FrontEnd.Expr.ofInteger (away_converted _ path h))

theorem relocate_float {e : Entry} {w : Word .float} (path : String)
    (h : e.token = ⟨.float, w.text⟩) :
    (FrontEnd.Expr.ofFloat (e.float path)).relocate away = (Literal.float w).tree :=
  (FrontEnd.Expr.relocate_ofFloat _).trans
    (congrArg FrontEnd.Expr.ofFloat (away_converted _ path h))

theorem spells_expr (l : Literal) :
    Spells .expr (FrontEnd.Expr.relocate away) l.tree [l.written] := by
  intro path es h
  cases l with
  | integer w =>
    obtain ⟨e, rfl, he⟩ := h.one
    exact ⟨_, .integer (congrArg Token.kind he), relocate_integer path he⟩
  | float w =>
    obtain ⟨e, rfl, he⟩ := h.one
    exact ⟨_, .float (congrArg Token.kind he), relocate_float path he⟩

theorem spells_argument (l : Literal) :
    Spells .argument (FrontEnd.Expr.relocate away) l.tree [l.written] := by
  intro path es h
  cases l with
  | integer w =>
    obtain ⟨e, rfl, he⟩ := h.one
    exact ⟨_, .argumentInteger (congrArg Token.kind he), relocate_integer path he⟩
  | float w =>
    obtain ⟨e, rfl, he⟩ := h.one
    exact ⟨_, .argumentFloat (congrArg Token.kind he), relocate_float path he⟩

theorem spells_pattern (l : Literal) :
    Spells .pattern (FrontEnd.Pattern.relocate away) l.pattern [l.written] := by
  intro path es h
  cases l with
  | integer w =>
    obtain ⟨e, rfl, he⟩ := h.one
    exact ⟨_, .patternInteger (congrArg Token.kind he),
      (FrontEnd.Pattern.relocate_ofInteger _).trans
        (congrArg FrontEnd.Pattern.ofInteger (away_converted _ path he))⟩
  | float w =>
    obtain ⟨e, rfl, he⟩ := h.one
    exact ⟨_, .patternFloat (congrArg Token.kind he),
      (FrontEnd.Pattern.relocate_ofFloat _).trans
        (congrArg FrontEnd.Pattern.ofFloat (away_converted _ path he))⟩

/-- A literal is no call, so that no arguments leave it as it is. -/
theorem applied (l : Literal) (args : List FrontEnd.Expr) :
    FrontEnd.Call.applied l.tree args .nowhere = ⟨l.tree, args, false, .nowhere⟩ := by
  have hcall : ∀ c, l.tree ≠ .call c := by
    intro c
    cases l with
    | integer w =>
      show FrontEnd.Expr.ofInteger (_, _) ≠ _
      cases (FrontEnd.Literal.integerValue w.text).toOption <;> exact nofun
    | float w =>
      show FrontEnd.Expr.ofFloat (_, _) ≠ _
      cases (FrontEnd.Literal.floatValue w.text).toOption <;> exact nofun
  unfold FrontEnd.Call.applied
  split
  · next c h => exact absurd h (hcall c)
  · rfl

end Literal

/-! ## Expressions -/

section Expressions

variable {x : FrontEnd.Expr} {xs : List FrontEnd.Expr} {ts us : List Written}

theorem spells_call (h : Spells .head (FrontEnd.Expr.relocate away) x ts)
    (hs : Spells .arguments (List.map (FrontEnd.Expr.relocate away)) xs us) :
    Spells .call (FrontEnd.Call.relocate away) (.applied x xs .nowhere) (ts ++ us) := by
  intro path es hes
  obtain ⟨fs, gs, rfl, hfs, hgs⟩ := hes.append
  obtain ⟨y, hy, hx⟩ := h path fs hfs
  obtain ⟨ys, hys, hxs⟩ := hs path gs hgs
  obtain ⟨e, fs, rfl, -⟩ := hy.begins
  refine ⟨_, .call hy hys, ?_⟩
  rw [FrontEnd.Call.relocate_applied, hx, hxs]
  rfl

end Expressions

theorem Expr.spells_argument {x : Expr}
    (h : Spells .expr (FrontEnd.Expr.relocate away) x.tree x.tokens) :
    Spells .argument (FrontEnd.Expr.relocate away) x.tree (parensUnless x.isBare x.tokens) := by
  by_cases hb : x.isBare = true
  · rw [parensUnless, if_pos hb]
    unfold isBare at hb
    split at hb
    · next l =>
      rw [tree, tokens]
      exact l.spells_argument
    · next n =>
      rw [tree, tokens, Call.tokens, Expr.arguments, List.append_nil, Call.tree, Expr.trees]
      exact n.spells_argument
    · cases hb
  · rw [parensUnless, if_neg hb]
    exact h.nested id (fun _ => rfl) .argumentNested

theorem spells_application {c : FrontEnd.Call} {ts : List Written}
    (h : Spells .call (FrontEnd.Call.relocate away) c ts) :
    Spells .expr (FrontEnd.Expr.relocate away) (.call c) ts :=
  h.whole FrontEnd.Expr.call (fun _ => by rw [FrontEnd.Expr.relocate]) .application

theorem spells_headNested {x : FrontEnd.Expr} {ts : List Written}
    (h : Spells .expr (FrontEnd.Expr.relocate away) x ts) :
    Spells .head (FrontEnd.Expr.relocate away) x (parens ts) :=
  h.nested id (fun _ => rfl) .headNested

mutual

theorem Expr.spells : (x : Expr) → Spells .expr (FrontEnd.Expr.relocate away) x.tree x.tokens
  | .literal l => by
    rw [Expr.tree, Expr.tokens]
    exact l.spells_expr
  | .call c => by
    rw [Expr.tree, Expr.tokens]
    exact spells_application c.spells

theorem Call.spells : (c : Call) → Spells .call (FrontEnd.Call.relocate away) c.tree c.tokens
  | .name n args => by
    rw [Call.tree, Call.tokens]
    exact spells_call n.spells_head (Expr.spells_arguments args)
  | .literal l args => by
    rw [Call.tree, Call.tokens, ← l.applied]
    exact spells_call (spells_headNested l.spells_expr) (Expr.spells_arguments args)
  | .call c first rest => by
    rw [Call.tree, Call.tokens]
    have hc := spells_headNested (spells_application c.spells)
    have hfirst := Expr.spells_argument first.spells
    exact spells_call hc (hfirst.more (Expr.spells_arguments rest) .moreArguments)

theorem Expr.spells_arguments : (xs : List Expr) →
    Spells .arguments (List.map (FrontEnd.Expr.relocate away)) (Expr.trees xs) (Expr.arguments xs)
  | [] => by
    rw [Expr.trees, Expr.arguments]
    exact .none .noArguments
  | x :: xs => by
    rw [Expr.trees, Expr.arguments]
    have hx := Expr.spells_argument x.spells
    exact hx.more (Expr.spells_arguments xs) .moreArguments

end

/-! ## Types -/

/-- Identifiers in a row, as names and as the arguments of a type. -/
theorem derives_names (path : String) {ws : List (Word .ident)} {es : List Entry}
    (h : Shows es (ws.map Word.written)) :
    ∃ ns, Derives path (.names ns) es ∧
      Derives path (.typeArguments (ns.map fun n => .call n.toCall)) es ∧
      ns.map (FrontEnd.Name.relocate away) = ws.map Word.tree := by
  induction ws generalizing es with
  | nil =>
    rw [h.nil]
    exact ⟨[], .noNames, .noTypeArguments, rfl⟩
  | cons w ws ih =>
    obtain ⟨e, es, rfl, he, h⟩ := h.cons
    obtain ⟨ns, hns, hargs, hws⟩ := ih h
    have hk : e.Is .ident := congrArg Token.kind he
    refine ⟨e.name path :: ns, .moreNames hk hns, ?_, ?_⟩
    · exact .moreTypeArguments (.typeArgumentName hk) hargs
    · rw [List.map_cons, List.map_cons, hws, relocate_name path he]
      rfl

section Types

variable {t u : FrontEnd.Ty} {xs : List FrontEnd.Expr} {ts us : List Written}

theorem spells_atomCall {w : Word .ident}
    (hs : Spells .typeArguments (List.map (FrontEnd.Expr.relocate away)) xs ts) :
    Spells .atom (FrontEnd.Ty.relocate away) (.app ⟨.name w.tree, xs, false, .nowhere⟩)
      (w.written :: ts) := by
  intro path es hes
  obtain ⟨e, es, rfl, he, hes⟩ := hes.cons
  obtain ⟨ys, hys, hxs⟩ := hs path es hes
  refine ⟨_, .atomCall (.typeCall (congrArg Token.kind he) hys), ?_⟩
  rw [FrontEnd.Ty.relocate, FrontEnd.Call.relocate, FrontEnd.Expr.relocate,
    FrontEnd.Expr.relocateAll_eq, hxs, relocate_name path he]
  rfl

theorem spells_arrow (ht : Spells .atom (FrontEnd.Ty.relocate away) t ts)
    (hu : Spells .type (FrontEnd.Ty.relocate away) u us) :
    Spells .type (FrontEnd.Ty.relocate away) (.func ⟨[], [t, u], .nowhere⟩)
      (ts ++ arrow.written :: us) := by
  intro path es hes
  obtain ⟨fs, gs, rfl, hfs, hgs⟩ := hes.append
  obtain ⟨a, gs, rfl, ha, hgs⟩ := hgs.cons
  obtain ⟨b, hb, ht⟩ := ht path fs hfs
  obtain ⟨c, hc, hu⟩ := hu path gs hgs
  obtain ⟨e, fs, rfl, -⟩ := hb.begins
  refine ⟨_, .arrow hb (congrArg Token.kind ha) hc, ?_⟩
  simp only [FrontEnd.Ty.relocate, FrontEnd.FuncTy.relocate, FrontEnd.Field.relocateAll,
    FrontEnd.Ty.relocateAll, ht, hu]
  rfl

theorem spells_context {w : Word .ident} {ws : List (Word .ident)}
    (ht : Spells .type (FrontEnd.Ty.relocate away) t ts)
    (hu : Spells .type (FrontEnd.Ty.relocate away) u us) :
    Spells .type (FrontEnd.Ty.relocate away)
      (u.withContext (w.tree :: ws.map Word.tree) t .nowhere)
      (leftParen.written :: ((w.written :: ws.map Word.written) ++ colon.written ::
        (ts ++ rightParen.written :: contextArrow.written :: us))) := by
  intro path es hes
  obtain ⟨l, es₁, rfl, hl, h₁⟩ := hes.cons
  obtain ⟨ms, es₂, rfl, hms, h₂⟩ := h₁.append
  obtain ⟨n, ns, rfl, hn, hns⟩ := hms.cons
  obtain ⟨c, es₃, rfl, hc, h₃⟩ := h₂.cons
  obtain ⟨fs, es₄, rfl, hfs, h₄⟩ := h₃.append
  obtain ⟨r, es₅, rfl, hr, h₅⟩ := h₄.cons
  obtain ⟨a, gs, rfl, ha, hgs⟩ := h₅.cons
  obtain ⟨names, -, hnames, hws⟩ := derives_names path hns
  obtain ⟨b, hb, ht⟩ := ht path fs hfs
  obtain ⟨d, hd, hu⟩ := hu path gs hgs
  have hinner := Derives.typeAtom (.atomCall (.typeCall (congrArg Token.kind hn) hnames))
  refine ⟨_, .context (congrArg Token.kind hl) hinner (FrontEnd.Ty.fieldNames_ofNames _ _ _)
    (congrArg Token.kind hc) hb (congrArg Token.kind hr) ha hd, ?_⟩
  rw [FrontEnd.Ty.relocate_withContext, List.map_cons, hws, relocate_name path hn, ht, hu]
  rfl

end Types

/-- A type is read as what may stand before an arrow if it is an application. -/
def Ty.phrase (t : Ty) : FrontEnd.Ty → Phrase :=
  if t.isApplied then .atom else .type

namespace Ty

variable {t : Ty}

theorem spells_type (h : Spells t.phrase (FrontEnd.Ty.relocate away) t.tree t.tokens) :
    Spells .type (FrontEnd.Ty.relocate away) t.tree t.tokens := by
  unfold phrase at h
  by_cases ha : t.isApplied = true
  · rw [if_pos ha] at h
    exact h.whole id (fun _ => rfl) .typeAtom
  · rw [if_neg ha] at h
    exact h

theorem spells_atom (h : Spells t.phrase (FrontEnd.Ty.relocate away) t.tree t.tokens) :
    Spells .atom (FrontEnd.Ty.relocate away) t.tree (parensUnless t.isApplied t.tokens) := by
  unfold phrase at h
  unfold parensUnless
  by_cases ha : t.isApplied = true
  · rw [if_pos ha] at h ⊢
    exact h
  · rw [if_neg ha] at h ⊢
    exact h.nested id (fun _ => rfl) .atomNested

theorem spells_argument (h : Spells t.phrase (FrontEnd.Ty.relocate away) t.tree t.tokens) :
    Spells .typeArgument (FrontEnd.Expr.relocate away) t.tree.toExpr
      (parensUnless t.isBare t.tokens) := by
  by_cases hb : t.isBare = true
  · rw [parensUnless, if_pos hb]
    unfold isBare at hb
    split at hb
    · next w =>
      rw [tree, tokens, arguments, trees]
      intro path es hes
      obtain ⟨e, rfl, he⟩ := hes.one
      refine ⟨_, .typeArgumentName (congrArg Token.kind he), ?_⟩
      rw [FrontEnd.Expr.relocate, FrontEnd.Name.relocate_toCall, relocate_name path he]
      rfl
    · cases hb
  · rw [parensUnless, if_neg hb]
    exact (spells_type h).nested _ FrontEnd.Ty.relocate_toExpr .typeArgumentNested

end Ty

mutual

theorem Ty.spells : (t : Ty) → Spells t.phrase (FrontEnd.Ty.relocate away) t.tree t.tokens
  | .app w args => by
    rw [Ty.tree, Ty.tokens]
    exact spells_atomCall (Ty.spells_arguments args)
  | .arrow source target => by
    rw [Ty.tree, Ty.tokens]
    exact spells_arrow (spells_atom source.spells) (spells_type target.spells)
  | .context first others shared result => by
    rw [Ty.tree, Ty.tokens]
    exact spells_context (spells_type shared.spells) (spells_type result.spells)

theorem Ty.spells_arguments : (ts : List Ty) →
    Spells .typeArguments (List.map (FrontEnd.Expr.relocate away)) (Ty.trees ts) (Ty.arguments ts)
  | [] => by
    rw [Ty.trees, Ty.arguments]
    exact .none .noTypeArguments
  | t :: ts => by
    rw [Ty.trees, Ty.arguments]
    have ht := spells_argument t.spells
    exact ht.more (Ty.spells_arguments ts) .moreTypeArguments

end

/-! ## Parts of declarations -/

theorem Pattern.spells (p : Pattern) :
    Spells .pattern (FrontEnd.Pattern.relocate away) p.tree p.tokens := by
  cases p with
  | ident w =>
    intro path es h
    obtain ⟨e, rfl, he⟩ := h.one
    refine ⟨_, .patternName (congrArg Token.kind he), ?_⟩
    rw [FrontEnd.Pattern.relocate, relocate_name path he]
    rfl
  | literal l => exact l.spells_pattern
  | call c => exact c.spells.nested FrontEnd.Pattern.call (fun _ => rfl) .patternCall

theorem Pattern.spells_all (ps : List Pattern) :
    Spells .patterns (List.map (FrontEnd.Pattern.relocate away)) (ps.map tree)
      (ps.flatMap tokens) := by
  induction ps with
  | nil => exact .none .noPatterns
  | cons p ps ih => exact p.spells.more ih .morePatterns

theorem Signature.spells (g : Signature) :
    Spells .signature (FrontEnd.Signature.relocate away) g.tree g.tokens := by
  intro path es h
  obtain ⟨fs, gs, rfl, hfs, hgs⟩ := h.append
  obtain ⟨c, gs, rfl, hc, hgs⟩ := hgs.cons
  obtain ⟨n, hn, hname⟩ := g.name.spells_declName path fs hfs
  obtain ⟨t, ht, hty⟩ := Ty.spells_type g.ty.spells path gs hgs
  refine ⟨_, .signature hn (congrArg Token.kind hc) ht, ?_⟩
  rw [FrontEnd.Signature.relocate, hname, hty]
  rfl

theorem spells_function (n : Name) (params : List Pattern) (body : Expr) :
    Spells (fun f => .decl (.function f)) (FrontEnd.Function.relocate away)
      ⟨n.tree, none, params.map Pattern.tree, some body.tree, .nowhere⟩
      (n.tokens ++ (params.flatMap Pattern.tokens ++ assign.written :: body.tokens)) := by
  intro path es h
  obtain ⟨fs, gs, rfl, hfs, h⟩ := h.append
  obtain ⟨gs, is, rfl, hgs, h⟩ := h.append
  obtain ⟨a, is, rfl, ha, his⟩ := h.cons
  obtain ⟨m, hm, hn⟩ := n.spells_declName path fs hfs
  obtain ⟨ps, hps, hparams⟩ := Pattern.spells_all params path gs hgs
  obtain ⟨x, hx, hbody⟩ := body.spells path is his
  refine ⟨_, .function hm hps (congrArg Token.kind ha) hx, ?_⟩
  unfold FrontEnd.Function.relocate
  rw [hn, Option.map_some, hbody]
  rw [hparams]
  rfl

end Surface
end FrontEnd
