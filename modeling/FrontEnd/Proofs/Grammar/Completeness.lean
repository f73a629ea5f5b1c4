import FrontEnd.Proofs.Grammar.Passage

/-!
# Completeness

A parser that stands before the tokens of a phrase reads that phrase and stops behind
them, if the token that follows cannot go on with it.  `Derives.reads` says so for
everything inside a declaration, by one induction over derivations.

Sequences of declarations and signatures are left out: where nothing separates them, it
takes more than their derivation to tell where the first one ends.  What reads the next of
them behind separators has lemmas of its own.
-/

namespace FrontEnd

namespace Passes

variable {s t : Parser} {e : Entry} {es fs : List Entry}

theorem head (h : Passes s (e :: es) t) (he : ¬ e.Is .eof) :
    s.current = e ∧ Passes s.pass es t := by
  have hs : s.current = e := h.current
  refine ⟨hs, ?_, h.reached⟩
  have hentries := h.entries
  rw [Parser.entries_eq (h.current_ne_eof he)] at hentries
  exact (List.cons.inj hentries).2

theorem nil (h : Passes s [] t) : t = s :=
  h.reached

/-- A token that is no literal is passed by moving on. -/
theorem head_plain {k : TokenKind} (h : Passes s (e :: es) t) (he : e.Is k)
    (hk : k.isPlain = true) : s.current = e ∧ Passes s.advance es t := by
  have hne : ¬ e.Is .eof := by
    intro hn
    exact TokenKind.ne_eof_of_isPlain hk (he.symm.trans hn)
  obtain ⟨hs, hp⟩ := h.head hne
  have hpass : s.pass = s.advance := by
    apply Parser.pass_of_isPlain
    rw [hs, he]
    exact hk
  rw [hpass] at hp
  exact ⟨hs, hp⟩

theorem first {k : TokenKind} (h : Passes s (e :: es) t) (he : e.Is k)
    (hk : k.isPlain = true) : Passes s [e] s.advance := by
  have hs := h.current
  rw [← hs] at he ⊢
  exact .plain he hk

end Passes

namespace Parse

variable {α : Type} {s t : Parser} {e : Entry}

theorem expect_ok {k : TokenKind} (h : Passes s [e] t) (he : e.Is k) (hk : k.isPlain = true) :
    expect k s = .ok e.token t :=
  (single_expect hk).reads h he

theorem name_ok (h : Passes s [e] t) (he : e.Is .ident) : name s = .ok (e.name s.path) t :=
  single_name.reads h he

theorem operator_ok (h : Passes s [e] t) (he : e.IsOperator) :
    operator s = .ok (e.name s.path) t :=
  single_operator.reads h he

theorem integer_ok (h : Passes s [e] t) (he : e.Is .integer) :
    integer s = .ok (e.integer s.path) t := by
  have hs := h.current
  rw [integer_apply (by rw [hs]; exact he), hs, h.reached]
  rfl

theorem float_ok (h : Passes s [e] t) (he : e.Is .float) : float s = .ok (e.float s.path) t := by
  have hs := h.current
  rw [float_apply (by rw [hs]; exact he), hs, h.reached]
  rfl

theorem parenthesized_ok {x : Parse α} {a : α} {l r : Entry} {es : List Entry}
    (h : Passes s (l :: (es ++ [r])) t) (hl : l.Is .parenLeft) (hr : r.Is .parenRight)
    (hes : ∀ e ∈ es, ¬ e.Is .eof)
    (hx : ∀ u v, Passes u es v → u.path = s.path → v.current = r → x u = .ok a v) :
    parenthesized x s = .ok a t := by
  obtain ⟨hs, hp⟩ := h.head_plain hl rfl
  obtain ⟨v, hv, ht⟩ := hp.split hes
  unfold parenthesized
  rw [advance_bind, bind_ok (hx _ v hv s.path_advance ht.current), bind_ok (expect_ok ht hr rfl)]
  rfl

theorem contextArrow_ok (h : Passes s [e] t) (he : e.token = ⟨.symbol, "=>"⟩) :
    contextArrow s = .ok () t :=
  single_contextArrow.reads h he

theorem many_nil {item : Parse (Option α)} (ht : Takes item) (h : item s = .ok none t) :
    many item s = .ok [] t := by
  rw [many_eq ht, bind_ok h]
  rfl

theorem many_cons {item : Parse (Option α)} (ht : Takes item) {u : Parser} {a : α} {as : List α}
    (h : item s = .ok (some a) u) (hs : many item u = .ok as t) :
    many item s = .ok (a :: as) t := by
  rw [many_eq ht, bind_ok h]
  show (many item >>= fun as => pure (a :: as)) u = _
  rw [bind_ok hs]
  rfl

theorem argument?_stop (x : Parse Expr) (hs : s.current.token.kind.beginsArgument = false) :
    argument? x s = .ok none s := by
  unfold argument?
  rw [kind_bind]
  cases hk : s.current.token.kind <;> rw [hk] at hs <;> first | rfl | cases hs

theorem typeArgument?_stop (x : Parse Ty) (hs : s.current.token.kind.beginsTypeArgument = false) :
    typeArgument? x s = .ok none s := by
  unfold typeArgument?
  rw [kind_bind]
  cases hk : s.current.token.kind <;> rw [hk] at hs <;> first | rfl | cases hs

theorem pattern?_stop (hs : s.current.token.kind.beginsArgument = false) :
    pattern? s = .ok none s := by
  unfold pattern?
  rw [kind_bind]
  cases hk : s.current.token.kind <;> rw [hk] at hs <;> first | rfl | cases hs

theorem decl_named {u : Parser} {n : Name} (hs : s.current.token.kind.beginsTypeArgument = true)
    (hn : declName s = .ok n u) : decl s = declOf n u := by
  unfold decl
  rw [kind_bind]
  cases hk : s.current.token.kind <;> rw [hk] at hs <;> first | exact bind_ok hn | cases hs

theorem declOf_signature {n : Name} {g : Signature} (hs : s.current.Is .colon)
    (h : signatureOf n s = .ok g t) : declOf n s = .ok (.signature g) t := by
  unfold declOf
  rw [kind_bind, hs]
  exact map_ok Decl.signature h

theorem declOf_function {n : Name} {f : Function}
    (hs : s.current.token.kind.beginsArgument = true ∨ s.current.Is .assign)
    (h : functionOf n s = .ok f t) : declOf n s = .ok (.function f) t := by
  unfold declOf
  rw [kind_bind]
  rcases hs with hs | hs
  · cases hk : s.current.token.kind <;> rw [hk] at hs <;>
      first | exact map_ok Decl.function h | cases hs
  · rw [hs]
    exact map_ok Decl.function h

theorem functionOf_ok {u v : Parser} {n : Name} {ps : List Pattern} {x : Expr}
    (hps : many pattern? s = .ok ps u) (hu : u.current.Is .assign) (hv : v = u.advance)
    (hx : expr v = .ok x t) : functionOf n s = .ok ⟨n, none, ps, some x, n.loc⟩ t := by
  have hskip : skip .assign u = .ok () v := by
    rw [skip_pass rfl hu, hv, Parser.pass_of_isPlain (by rw [hu]; rfl)]
  unfold functionOf
  rw [bind_ok hps, bind_ok hskip]
  exact map_ok (fun x => Function.mk n none ps (some x) n.loc) hx

theorem not_isOperator_of_begins (hs : s.current.token.kind.beginsArgument = true) :
    ¬ s.current.IsOperator := by
  rintro (h | h) <;>
  · rw [h] at hs
    cases hs

theorem application_ok {u : Parser} {fn : Expr} {args : List Expr} (hf : head expr s = .ok fn u)
    (ha : many (argument? expr) u = .ok args t) :
    application expr s = .ok (.applied fn args s.here) t := by
  unfold application
  rw [here_bind, bind_ok hf, bind_ok ha]
  cases fn <;> cases args <;> rfl

theorem typeApplication_ok {u : Parser} {n : Name} {args : List Expr} (hn : name s = .ok n u)
    (ha : many (typeArgument? type) u = .ok args t) :
    typeApplication type s = .ok ⟨.name n, args, false, s.here⟩ t := by
  unfold typeApplication
  rw [here_bind, bind_ok hn, bind_ok ha]
  rfl

/-- In parentheses stands an operator, or else an expression. -/
theorem parenthesized_operator {l r : Entry} (ofName : Name → Expr) {x : Parse Expr}
    (h : Passes s [l, e, r] t) (hl : l.Is .parenLeft) (he : e.IsOperator)
    (hr : r.Is .parenRight) :
    parenthesized (operatorOr ofName x) s = .ok (ofName (e.name s.path)) t := by
  have hne : ∀ f ∈ [e], ¬ f.Is .eof := by
    intro f hf hn
    rw [List.mem_singleton.1 hf] at hn
    rcases he with he | he <;> cases he.symm.trans hn
  refine parenthesized_ok h hl hr hne fun u v hu hp _ => ?_
  cases hu.current
  rw [operatorOr_operator ofName he, hp, hu.reached]
  rfl

end Parse

namespace Phrase

def endedBy : Phrase → TokenKind → Bool
  | expr _, k | arguments _, k | call _, k | patterns _, k | decl (.function _), k =>
    !k.beginsArgument
  | type _, k | signature _, k | decl (.signature _), k => !k.beginsTypeArgument && k ≠ .arrow
  | atom _, k | typeCall _, k | typeArguments _, k => !k.beginsTypeArgument
  | names _, k => k ≠ .ident
  | _, _ => true

def Reads (s t : Parser) : Phrase → Prop
  | expr x => Parse.expr s = .ok x t
  | head x => Parse.head Parse.expr s = .ok x t
  | argument x => Parse.argument? Parse.expr s = .ok (some x) t
  | arguments xs => Parse.many (Parse.argument? Parse.expr) s = .ok xs t
  | call c => Parse.application Parse.expr s = .ok c t
  | type a => Parse.type s = .ok a t
  | atom a => Parse.type s = Parse.arrowTail Parse.type a s.here t
  | typeCall c => Parse.typeApplication Parse.type s = .ok c t
  | typeArgument x => Parse.typeArgument? Parse.type s = .ok (some x) t
  | typeArguments xs => Parse.many (Parse.typeArgument? Parse.type) s = .ok xs t
  | pattern p => Parse.pattern? s = .ok (some p) t
  | patterns ps => Parse.many Parse.pattern? s = .ok ps t
  | declName n => Parse.declName s = .ok n t
  | names ns => Parse.many Parse.name? s = .ok ns t
  | signature g => ∃ n u, Parse.declName s = .ok n u ∧ u.current.Is .colon ∧
      Parse.signatureOf n u = .ok g t
  | decl (.signature g) => Parse.decl s = .ok (.signature g) t
  | decl (.function f) => Parse.decl s = .ok (.function f) t
  | _ => True

/-- Whether the phrase is read wherever its tokens stand in the file `path`. -/
abbrev ReadFrom (path : String) (ph : Phrase) (es : List Entry) : Prop :=
  ∀ {s t : Parser}, s.path = path → Passes s es t →
    ph.endedBy t.current.token.kind = true → ph.Reads s t

end Phrase

namespace Derives

open Parse

variable {path : String}

/-! ## Expressions -/

theorem read_integer {e : Entry} (h : e.Is .integer) :
    Phrase.ReadFrom path (.expr (.ofInteger (e.integer path))) [e] := by
  intro s t hs hp _
  show expr s = _
  rw [expr_eq]
  unfold exprLevel
  rw [kind_bind, hp.current, h, ← hs]
  exact map_ok Expr.ofInteger (integer_ok hp h)

theorem read_float {e : Entry} (h : e.Is .float) :
    Phrase.ReadFrom path (.expr (.ofFloat (e.float path))) [e] := by
  intro s t hs hp _
  show expr s = _
  rw [expr_eq]
  unfold exprLevel
  rw [kind_bind, hp.current, h, ← hs]
  exact map_ok Expr.ofFloat (float_ok hp h)

theorem read_application {c : Call} {es : List Entry} (h : Derives path (.call c) es)
    (ih : Phrase.ReadFrom path (.call c) es) : Phrase.ReadFrom path (.expr (.call c)) es := by
  intro s t hs hp he
  obtain ⟨e, fs, rfl, hk⟩ := h.begins
  have hc := ih hs hp he
  show expr s = _
  rw [expr_eq]
  unfold exprLevel
  rw [kind_bind, hp.current]
  cases hek : e.token.kind <;> rw [hek] at hk <;> first | exact map_ok Expr.call hc | cases hk

theorem read_headName {e : Entry} (h : e.Is .ident) :
    Phrase.ReadFrom path (.head (.name (e.name path))) [e] := by
  intro s t hs hp _
  have hne : ¬ s.current.token.kind = .parenLeft := by
    rw [hp.current, h]
    decide
  show head expr s = _
  unfold head
  rw [kind_bind, if_neg hne, ← hs]
  exact map_ok Expr.name (name_ok hp h)

theorem read_headOperator {l o r : Entry} (hl : l.Is .parenLeft) (ho : o.IsOperator)
    (hr : r.Is .parenRight) : Phrase.ReadFrom path (.head (.name (o.name path))) [l, o, r] := by
  intro s t hs hp _
  show head expr s = _
  unfold head
  rw [kind_bind, hp.current, if_pos hl, ← hs]
  exact parenthesized_operator Expr.name hp hl ho hr

theorem parenthesized_expr {s t : Parser} (ofName : Name → Expr) {x : Expr} {l r : Entry}
    {es : List Entry} (hp : Passes s (l :: (es ++ [r])) t) (hl : l.Is .parenLeft)
    (h : Derives path (.expr x) es) (hr : r.Is .parenRight) (hs : s.path = path)
    (ih : Phrase.ReadFrom path (.expr x) es) :
    parenthesized (operatorOr ofName expr) s = .ok x t := by
  obtain ⟨e, fs, rfl, hk⟩ := h.begins
  refine parenthesized_ok hp hl hr h.not_eof fun u v hu hpath hv => ?_
  have hbegin : u.current.token.kind.beginsArgument = true := by
    rw [hu.current]
    exact hk
  have hend : (Phrase.expr x).endedBy v.current.token.kind = true := by
    rw [hv, hr]
    rfl
  rw [operatorOr_expr ofName (not_isOperator_of_begins hbegin)]
  exact ih (hpath.trans hs) hu hend

theorem read_headNested {l r : Entry} {x : Expr} {es : List Entry} (hl : l.Is .parenLeft)
    (h : Derives path (.expr x) es) (hr : r.Is .parenRight)
    (ih : Phrase.ReadFrom path (.expr x) es) :
    Phrase.ReadFrom path (.head x) (l :: (es ++ [r])) := by
  intro s t hs hp _
  show head expr s = _
  unfold head
  rw [kind_bind, hp.current, if_pos hl]
  exact parenthesized_expr _ hp hl h hr hs ih

theorem read_argumentInteger {e : Entry} (h : e.Is .integer) :
    Phrase.ReadFrom path (.argument (.ofInteger (e.integer path))) [e] := by
  intro s t hs hp _
  show argument? expr s = _
  unfold argument?
  rw [kind_bind, hp.current, h, ← hs]
  exact map_ok (fun v => some (Expr.ofInteger v)) (integer_ok hp h)

theorem read_argumentFloat {e : Entry} (h : e.Is .float) :
    Phrase.ReadFrom path (.argument (.ofFloat (e.float path))) [e] := by
  intro s t hs hp _
  show argument? expr s = _
  unfold argument?
  rw [kind_bind, hp.current, h, ← hs]
  exact map_ok (fun v => some (Expr.ofFloat v)) (float_ok hp h)

theorem read_argumentName {e : Entry} (h : e.Is .ident) :
    Phrase.ReadFrom path (.argument (.call (e.name path).toCall)) [e] := by
  intro s t hs hp _
  show argument? expr s = _
  unfold argument?
  rw [kind_bind, hp.current, h, ← hs]
  exact map_ok (fun n => some (Expr.call n.toCall)) (name_ok hp h)

theorem read_argumentOperator {l o r : Entry} (hl : l.Is .parenLeft) (ho : o.IsOperator)
    (hr : r.Is .parenRight) :
    Phrase.ReadFrom path (.argument (.call (o.name path).toCall)) [l, o, r] := by
  intro s t hs hp _
  show argument? expr s = _
  unfold argument?
  rw [kind_bind, hp.current, hl, ← hs]
  exact map_ok some (parenthesized_operator (fun n => .call n.toCall) hp hl ho hr)

theorem read_argumentNested {l r : Entry} {x : Expr} {es : List Entry} (hl : l.Is .parenLeft)
    (h : Derives path (.expr x) es) (hr : r.Is .parenRight)
    (ih : Phrase.ReadFrom path (.expr x) es) :
    Phrase.ReadFrom path (.argument x) (l :: (es ++ [r])) := by
  intro s t hs hp _
  show argument? expr s = _
  unfold argument?
  rw [kind_bind, hp.current, hl]
  exact map_ok some (parenthesized_expr _ hp hl h hr hs ih)

theorem read_noArguments : Phrase.ReadFrom path (.arguments []) [] := by
  intro s t hs hp he
  rw [hp.nil] at he ⊢
  have hstop : s.current.token.kind.beginsArgument = false := by simpa [Phrase.endedBy] using he
  exact many_nil (takes_argument? closed_forward.expr) (argument?_stop expr hstop)

theorem read_moreArguments {x : Expr} {xs : List Expr} {es fs : List Entry}
    (h : Derives path (.argument x) es) (ih : Phrase.ReadFrom path (.argument x) es)
    (ihs : Phrase.ReadFrom path (.arguments xs) fs) :
    Phrase.ReadFrom path (.arguments (x :: xs)) (es ++ fs) := by
  intro s t hs hp he
  obtain ⟨u, hu, ht⟩ := hp.split h.not_eof
  exact many_cons (takes_argument? closed_forward.expr) (ih hs hu rfl)
    (ihs (hu.path.trans hs) ht he)

theorem read_call {e : Entry} {fn : Expr} {args : List Expr} {es fs : List Entry}
    (h : Derives path (.head fn) (e :: es)) (ih : Phrase.ReadFrom path (.head fn) (e :: es))
    (ihs : Phrase.ReadFrom path (.arguments args) fs) :
    Phrase.ReadFrom path (.call (.applied fn args (e.loc path))) (e :: (es ++ fs)) := by
  intro s t hs hp he
  obtain ⟨u, hu, ht⟩ := Passes.split (List.cons_append ▸ hp) h.not_eof
  have hr := application_ok (ih hs hu rfl) (ihs (hu.path.trans hs) ht he)
  unfold Parser.here at hr
  rw [hu.current, hs] at hr
  exact hr

/-! ## Types -/

theorem read_typeCall {e : Entry} {args : List Expr} {es : List Entry} (h : e.Is .ident)
    (ihs : Phrase.ReadFrom path (.typeArguments args) es) :
    Phrase.ReadFrom path (.typeCall ⟨.name (e.name path), args, false, e.loc path⟩)
      (e :: es) := by
  intro s t hs hp he
  obtain ⟨hcur, hrest⟩ := hp.head_plain h rfl
  have hr := typeApplication_ok (name_ok (hp.first h rfl) h)
    (ihs (s.path_advance.trans hs) hrest (by exact he))
  unfold Parser.here at hr
  rw [hcur, hs] at hr
  exact hr

theorem read_typeArgumentName {e : Entry} (h : e.Is .ident) :
    Phrase.ReadFrom path (.typeArgument (.call (e.name path).toCall)) [e] := by
  intro s t hs hp _
  show typeArgument? type s = _
  unfold typeArgument?
  rw [kind_bind, hp.current, h, ← hs]
  exact map_ok (fun n => some (Expr.call n.toCall)) (name_ok hp h)

theorem read_typeArgumentNested {l r : Entry} {a : Ty} {es : List Entry} (hl : l.Is .parenLeft)
    (h : Derives path (.type a) es) (hr : r.Is .parenRight)
    (ih : Phrase.ReadFrom path (.type a) es) :
    Phrase.ReadFrom path (.typeArgument a.toExpr) (l :: (es ++ [r])) := by
  intro s t hs hp _
  show typeArgument? type s = _
  unfold typeArgument?
  rw [kind_bind, hp.current, hl]
  refine map_ok (fun a : Ty => some a.toExpr) (parenthesized_ok hp hl hr h.not_eof ?_)
  intro u v hu hpath hv
  exact ih (hpath.trans hs) hu (by rw [hv, hr]; rfl)

theorem read_noTypeArguments : Phrase.ReadFrom path (.typeArguments []) [] := by
  intro s t hs hp he
  rw [hp.nil] at he ⊢
  have hstop : s.current.token.kind.beginsTypeArgument = false := by
    simpa [Phrase.endedBy] using he
  exact many_nil (takes_typeArgument? forward_type) (typeArgument?_stop type hstop)

theorem read_moreTypeArguments {x : Expr} {xs : List Expr} {es fs : List Entry}
    (h : Derives path (.typeArgument x) es) (ih : Phrase.ReadFrom path (.typeArgument x) es)
    (ihs : Phrase.ReadFrom path (.typeArguments xs) fs) :
    Phrase.ReadFrom path (.typeArguments (x :: xs)) (es ++ fs) := by
  intro s t hs hp he
  obtain ⟨u, hu, ht⟩ := hp.split h.not_eof
  exact many_cons (takes_typeArgument? forward_type) (ih hs hu rfl)
    (ihs (hu.path.trans hs) ht he)

theorem read_atomCall {c : Call} {es : List Entry} (h : Derives path (.typeCall c) es)
    (ih : Phrase.ReadFrom path (.typeCall c) es) :
    Phrase.ReadFrom path (.atom (.app c)) es := by
  intro s t hs hp he
  have hk : s.current.token.kind = .ident := by
    cases h with
    | typeCall h hxs => exact hp.current ▸ h
  show type s = _
  rw [congrFun type_eq s]
  unfold typeLevel
  rw [here_bind, kind_bind, hk]
  dsimp only
  rw [bind_ok (ih hs hp he)]

theorem read_atomNested {l r : Entry} {a : Ty} {es : List Entry} (hl : l.Is .parenLeft)
    (h : Derives path (.type a) es) (hr : r.Is .parenRight)
    (ih : Phrase.ReadFrom path (.type a) es) :
    Phrase.ReadFrom path (.atom a) (l :: (es ++ [r])) := by
  intro s t hs hp _
  obtain ⟨hcur, hrest⟩ := hp.head_plain hl rfl
  obtain ⟨u, hu, ht⟩ := hrest.split h.not_eof
  have hinner := ih (s.path_advance.trans hs) hu (by rw [ht.current, hr]; rfl)
  have hne : ¬ u.current.token.kind = .colon := by
    rw [ht.current, hr]
    decide
  show type s = _
  rw [congrFun type_eq s]
  unfold typeLevel
  rw [here_bind, kind_bind, hcur, hl]
  dsimp only
  rw [advance_bind, bind_ok hinner, kind_bind, if_neg hne, bind_ok (expect_ok ht hr rfl)]

theorem read_typeAtom {a : Ty} {es : List Entry} (ih : Phrase.ReadFrom path (.atom a) es) :
    Phrase.ReadFrom path (.type a) es := by
  intro s t hs hp he
  have hstop : t.current.token.kind.beginsTypeArgument = false ∧
      ¬ t.current.token.kind = .arrow := by
    simpa [Phrase.endedBy] using he
  have hr := ih hs hp (by simpa [Phrase.endedBy] using hstop.1)
  exact hr.trans (arrowTail_stop type _ _ hstop.2)

theorem read_arrow {e a : Entry} {t u : Ty} {es fs : List Entry}
    (ht : Derives path (.atom t) (e :: es)) (ha : a.Is .arrow)
    (iht : Phrase.ReadFrom path (.atom t) (e :: es)) (ihu : Phrase.ReadFrom path (.type u) fs) :
    Phrase.ReadFrom path (.type (.func ⟨[], [t, u], e.loc path⟩)) (e :: (es ++ a :: fs)) := by
  intro s v hs hp he
  obtain ⟨w, hpw, hpv⟩ := Passes.split (List.cons_append ▸ hp) ht.not_eof
  have hloc := hpw.current
  obtain ⟨hcur, hrest⟩ := hpv.head_plain ha rfl
  have hfirst := iht hs hpw (by rw [hcur, ha]; rfl)
  have hsecond := ihu (w.path_advance.trans (hpw.path.trans hs)) hrest he
  have hk : w.current.token.kind = .arrow := hcur ▸ ha
  refine hfirst.trans ?_
  unfold arrowTail
  rw [kind_bind, if_pos hk, advance_bind]
  refine (map_ok (fun u => Ty.func ⟨[], [t, u], s.here⟩) hsecond).trans ?_
  unfold Parser.here
  rw [hloc, hs]
  rfl

theorem read_context {l c r a : Entry} {inner shared result : Ty} {ns : List Name}
    {es fs gs : List Entry} (hl : l.Is .parenLeft) (hi : Derives path (.type inner) es)
    (hn : inner.fieldNames = .ok ns) (hc : c.Is .colon) (hsh : Derives path (.type shared) fs)
    (hr : r.Is .parenRight) (ha : a.token = ⟨.symbol, "=>"⟩)
    (ihi : Phrase.ReadFrom path (.type inner) es) (ihs : Phrase.ReadFrom path (.type shared) fs)
    (ihu : Phrase.ReadFrom path (.type result) gs) :
    Phrase.ReadFrom path (.type (result.withContext ns shared (l.loc path)))
      (l :: (es ++ c :: (fs ++ r :: a :: gs))) := by
  intro s t hs hp he
  have hak : a.Is .symbol := by
    show a.token.kind = _
    rw [ha]
  obtain ⟨hcur, h₁⟩ := hp.head_plain hl rfl
  obtain ⟨u, hpu, h₂⟩ := h₁.split hi.not_eof
  obtain ⟨hcolon, h₃⟩ := h₂.head_plain hc rfl
  obtain ⟨v, hpv, h₄⟩ := h₃.split hsh.not_eof
  obtain ⟨hright, h₅⟩ := h₄.head_plain hr rfl
  obtain ⟨-, h₆⟩ := h₅.head_plain hak rfl
  have hu' := hpu.path.trans (s.path_advance.trans hs)
  have hv' := hpv.path.trans (u.path_advance.trans hu')
  have hw' := v.advance.path_advance.trans (v.path_advance.trans hv')
  -- What stands in the parenthesis is a type like any other until the colon is seen.
  have hinner := ihi (s.path_advance.trans hs) hpu (by rw [hcolon, hc]; rfl)
  have hshared := ihs (u.path_advance.trans hu') hpv (by rw [hright, hr]; rfl)
  have hresult := ihu hw' h₆ he
  have hk : u.current.token.kind = .colon := hcolon ▸ hc
  have hnames : (MonadExcept.ofExcept inner.fieldNames : Parse (List Name)) u = .ok ns u := by
    rw [hn]
    rfl
  have hloc : s.here = l.loc path := by
    rw [← hs, ← hcur]
    rfl
  show type s = _
  rw [congrFun type_eq s]
  unfold typeLevel
  rw [here_bind, kind_bind, hcur, hl]
  dsimp only
  rw [advance_bind, bind_ok hinner, kind_bind, if_pos hk]
  unfold Parse.context
  rw [bind_ok hnames, bind_ok (expect_ok (h₂.first hc rfl) hc rfl), bind_ok hshared,
    bind_ok (expect_ok (h₄.first hr rfl) hr rfl), bind_ok (contextArrow_ok (h₅.first hak rfl) ha),
    hloc]
  exact map_ok (fun a : Ty => a.withContext ns shared (l.loc path)) hresult

/-! ## Patterns -/

theorem read_patternName {e : Entry} (h : e.Is .ident) :
    Phrase.ReadFrom path (.pattern (.name (e.name path))) [e] := by
  intro s t hs hp _
  show pattern? s = _
  unfold pattern?
  rw [kind_bind, hp.current, h, ← hs]
  exact map_ok (fun n => some (Pattern.name n)) (name_ok hp h)

theorem read_patternCall {l r : Entry} {c : Call} {es : List Entry} (hl : l.Is .parenLeft)
    (h : Derives path (.call c) es) (hr : r.Is .parenRight)
    (ih : Phrase.ReadFrom path (.call c) es) :
    Phrase.ReadFrom path (.pattern (.call c)) (l :: (es ++ [r])) := by
  intro s t hs hp _
  show pattern? s = _
  unfold pattern?
  rw [kind_bind, hp.current, hl]
  refine map_ok (fun c => some (Pattern.call c)) (parenthesized_ok hp hl hr h.not_eof ?_)
  intro u v hu hpath hv
  exact ih (hpath.trans hs) hu (by rw [hv, hr]; rfl)

theorem read_patternInteger {e : Entry} (h : e.Is .integer) :
    Phrase.ReadFrom path (.pattern (.ofInteger (e.integer path))) [e] := by
  intro s t hs hp _
  show pattern? s = _
  unfold pattern?
  rw [kind_bind, hp.current, h, ← hs]
  exact map_ok (fun v => some (Pattern.ofInteger v)) (integer_ok hp h)

theorem read_patternFloat {e : Entry} (h : e.Is .float) :
    Phrase.ReadFrom path (.pattern (.ofFloat (e.float path))) [e] := by
  intro s t hs hp _
  show pattern? s = _
  unfold pattern?
  rw [kind_bind, hp.current, h, ← hs]
  exact map_ok (fun v => some (Pattern.ofFloat v)) (float_ok hp h)

theorem read_noPatterns : Phrase.ReadFrom path (.patterns []) [] := by
  intro s t hs hp he
  rw [hp.nil] at he ⊢
  have hstop : s.current.token.kind.beginsArgument = false := by simpa [Phrase.endedBy] using he
  exact many_nil takes_pattern? (pattern?_stop hstop)

theorem read_morePatterns {p : Pattern} {ps : List Pattern} {es fs : List Entry}
    (h : Derives path (.pattern p) es) (ih : Phrase.ReadFrom path (.pattern p) es)
    (ihs : Phrase.ReadFrom path (.patterns ps) fs) :
    Phrase.ReadFrom path (.patterns (p :: ps)) (es ++ fs) := by
  intro s t hs hp he
  obtain ⟨u, hu, ht⟩ := hp.split h.not_eof
  exact many_cons takes_pattern? (ih hs hu rfl) (ihs (hu.path.trans hs) ht he)

/-! ## Names, signatures and declarations -/

theorem read_declIdent {e : Entry} (h : e.Is .ident) :
    Phrase.ReadFrom path (.declName (e.name path)) [e] := by
  intro s t hs hp _
  have hne : ¬ s.current.token.kind = .parenLeft := by
    rw [hp.current, h]
    decide
  show declName s = _
  unfold declName
  rw [kind_bind, if_neg hne, ← hs]
  exact name_ok hp h

theorem read_declOperator {l o r : Entry} (hl : l.Is .parenLeft) (ho : o.IsOperator)
    (hr : r.Is .parenRight) : Phrase.ReadFrom path (.declName (o.name path)) [l, o, r] := by
  intro s t hs hp _
  have hne : ∀ f ∈ [o], ¬ f.Is .eof := by
    intro f hf hn
    rw [List.mem_singleton.1 hf] at hn
    rcases ho with ho | ho <;> cases ho.symm.trans hn
  show declName s = _
  unfold declName
  rw [kind_bind, hp.current, if_pos hl, ← hs]
  exact parenthesized_ok hp hl hr hne fun u v hu hpath _ => hpath ▸ operator_ok hu ho

theorem read_noNames : Phrase.ReadFrom path (.names []) [] := by
  intro s t hs hp he
  rw [hp.nil] at he ⊢
  exact many_nil takes_name? (optional_name.none s (by simpa [Phrase.endedBy] using he))

theorem read_moreNames {e : Entry} {ns : List Name} {es : List Entry} (h : e.Is .ident)
    (ihs : Phrase.ReadFrom path (.names ns) es) :
    Phrase.ReadFrom path (.names (e.name path :: ns)) (e :: es) := by
  intro s t hs hp he
  obtain ⟨hcur, hrest⟩ := hp.head (by rw [Entry.Is, h]; decide)
  have hname : name? s = .ok (some (e.name path)) s.pass := by
    rw [optional_name.some s (hcur ▸ h), ← hs, ← hcur]
    rfl
  exact many_cons takes_name? hname (ihs (s.path_pass.trans hs) hrest he)

theorem read_signature {c : Entry} {n : Name} {a : Ty} {es fs : List Entry}
    (hn : Derives path (.declName n) es) (hc : c.Is .colon)
    (ihn : Phrase.ReadFrom path (.declName n) es) (iha : Phrase.ReadFrom path (.type a) fs) :
    Phrase.ReadFrom path (.signature ⟨n, a, n.loc⟩) (es ++ c :: fs) := by
  intro s t hs hp he
  obtain ⟨u, hu, h₁⟩ := hp.split hn.not_eof
  obtain ⟨hcur, h₂⟩ := h₁.head_plain hc rfl
  have htype := iha (u.path_advance.trans (hu.path.trans hs)) h₂ he
  refine ⟨n, u, ihn hs hu rfl, hcur ▸ hc, ?_⟩
  unfold signatureOf
  rw [bind_ok (expect_ok (h₁.first hc rfl) hc rfl)]
  exact map_ok (fun a => Signature.mk n a n.loc) htype

theorem read_declSignature {g : Signature} {es : List Entry} (h : Derives path (.signature g) es)
    (ih : Phrase.ReadFrom path (.signature g) es) :
    Phrase.ReadFrom path (.decl (.signature g)) es := by
  intro s t hs hp he
  have hbegin : s.current.token.kind.beginsTypeArgument = true := by
    cases h with
    | signature hn hc ht =>
      obtain ⟨e, fs, rfl, hk⟩ := hn.begins
      rw [Passes.current hp]
      exact hk
  obtain ⟨n, u, hn, hu, hg⟩ := ih hs hp he
  exact (decl_named hbegin hn).trans (declOf_signature hu hg)

/-- A run of patterns begins with a pattern, if it is not empty. -/
theorem patterns_begin {ps : List Pattern} {es : List Entry} (h : Derives path (.patterns ps) es) :
    es = [] ∨ ∃ e fs, es = e :: fs ∧ e.token.kind.beginsArgument = true := by
  cases h with
  | noPatterns => exact Or.inl rfl
  | morePatterns h hs =>
    obtain ⟨e, fs, he, hk⟩ := h.begins
    rw [he]
    exact Or.inr ⟨e, _, rfl, hk⟩

theorem read_function {a : Entry} {n : Name} {ps : List Pattern} {x : Expr}
    {es fs gs : List Entry} (hn : Derives path (.declName n) es)
    (hps : Derives path (.patterns ps) fs) (ha : a.Is .assign)
    (ihn : Phrase.ReadFrom path (.declName n) es) (ihp : Phrase.ReadFrom path (.patterns ps) fs)
    (ihx : Phrase.ReadFrom path (.expr x) gs) :
    Phrase.ReadFrom path (.decl (.function ⟨n, none, ps, some x, n.loc⟩))
      (es ++ (fs ++ a :: gs)) := by
  intro s t hs hp he
  obtain ⟨u, hpu, h₁⟩ := hp.split hn.not_eof
  obtain ⟨v, hpv, h₂⟩ := h₁.split hps.not_eof
  obtain ⟨hcur, h₃⟩ := h₂.head_plain ha rfl
  have hu' := hpu.path.trans hs
  have hv' := hpv.path.trans hu'
  have hassign : v.current.Is .assign := hcur ▸ ha
  have hpatterns := ihp hu' hpv (by rw [hassign]; rfl)
  have hbody := ihx (v.path_advance.trans hv') h₃ he
  have hbegin : s.current.token.kind.beginsTypeArgument = true := by
    obtain ⟨e, fs, rfl, hk⟩ := hn.begins
    rw [Passes.current hp]
    exact hk
  have hnext : u.current.token.kind.beginsArgument = true ∨ u.current.Is .assign := by
    rcases patterns_begin hps with rfl | ⟨e, fs, rfl, hk⟩
    · exact Or.inr (hpv.nil ▸ hassign)
    · rw [hpv.current]
      exact Or.inl hk
  exact (decl_named hbegin (ihn hs hpu rfl)).trans
    (declOf_function hnext (functionOf_ok hpatterns hassign rfl hbody))

/-- A parser that stands before the tokens of a phrase reads it. -/
theorem reads {ph : Phrase} {es : List Entry} (h : Derives path ph es) {s t : Parser}
    (hs : s.path = path) (hp : Passes s es t) (he : ph.endedBy t.current.token.kind = true) :
    ph.Reads s t := by
  induction h generalizing s t with
  | integer h => exact read_integer h hs hp he
  | float h => exact read_float h hs hp he
  | application h ih => exact read_application h ih hs hp he
  | headName h => exact read_headName h hs hp he
  | headOperator hl ho hr => exact read_headOperator hl ho hr hs hp he
  | headNested hl h hr ih => exact read_headNested hl h hr ih hs hp he
  | argumentInteger h => exact read_argumentInteger h hs hp he
  | argumentFloat h => exact read_argumentFloat h hs hp he
  | argumentName h => exact read_argumentName h hs hp he
  | argumentOperator hl ho hr => exact read_argumentOperator hl ho hr hs hp he
  | argumentNested hl h hr ih => exact read_argumentNested hl h hr ih hs hp he
  | noArguments => exact read_noArguments hs hp he
  | moreArguments h hxs ih ihs => exact read_moreArguments h ih ihs hs hp he
  | call h hxs ih ihs => exact read_call h ih ihs hs hp he
  | typeCall h hxs ihs => exact read_typeCall h ihs hs hp he
  | typeArgumentName h => exact read_typeArgumentName h hs hp he
  | typeArgumentNested hl h hr ih => exact read_typeArgumentNested hl h hr ih hs hp he
  | noTypeArguments => exact read_noTypeArguments hs hp he
  | moreTypeArguments h hxs ih ihs => exact read_moreTypeArguments h ih ihs hs hp he
  | atomCall h ih => exact read_atomCall h ih hs hp he
  | atomNested hl h hr ih => exact read_atomNested hl h hr ih hs hp he
  | typeAtom h ih => exact read_typeAtom ih hs hp he
  | arrow ht ha hu iht ihu => exact read_arrow ht ha iht ihu hs hp he
  | context hl hi hn hc hsh hr ha hu ihi ihs ihu =>
    exact read_context hl hi hn hc hsh hr ha ihi ihs ihu hs hp he
  | patternName h => exact read_patternName h hs hp he
  | patternCall hl h hr ih => exact read_patternCall hl h hr ih hs hp he
  | patternInteger h => exact read_patternInteger h hs hp he
  | patternFloat h => exact read_patternFloat h hs hp he
  | noPatterns => exact read_noPatterns hs hp he
  | morePatterns h hps ih ihs => exact read_morePatterns h ih ihs hs hp he
  | declIdent h => exact read_declIdent h hs hp he
  | declOperator hl ho hr => exact read_declOperator hl ho hr hs hp he
  | noNames => exact read_noNames hs hp he
  | moreNames h hns ihs => exact read_moreNames h ihs hs hp he
  | signature hn hc ht ihn iht => exact read_signature hn hc ihn iht hs hp he
  | declSignature h ih => exact read_declSignature h ih hs hp he
  | function hn hps ha hx ihn ihp ihx => exact read_function hn hps ha ihn ihp ihx hs hp he
  | _ => trivial

end Derives

open Parse

section Separators

variable {s t u : Parser} {es fs : List Entry}

theorem Separators.not_eof (h : Separators es) : ∀ e ∈ es, ¬ e.Is .eof := by
  intro e he hk
  cases (h e he).symm.trans hk

theorem Parse.skipSeparators_ok (h : Passes s es t) (hs : Separators es)
    (ht : ¬ t.current.Is .semi) : skipSeparators s = .ok () t := by
  have hmany : ∃ as, many separator? s = .ok as t := by
    induction es generalizing s with
    | nil =>
      rw [h.nil] at ht ⊢
      exact ⟨[], many_nil takes_separator? (optional_separator.none s ht)⟩
    | cons e es ih =>
      have he : e.Is .semi := hs e List.mem_cons_self
      obtain ⟨rfl, hrest⟩ := h.head (by rw [Entry.Is, he]; decide)
      obtain ⟨as, has⟩ := ih hrest fun f hf => hs f (List.mem_cons_of_mem _ hf)
      exact ⟨_, many_cons takes_separator? (optional_separator.some s he) has⟩
  obtain ⟨as, has⟩ := hmany
  unfold skipSeparators
  rw [bind_ok has]
  rfl

theorem Parse.member?_ok {path : String} {g : Signature} (hs : s.path = path)
    (h : Passes s (es ++ fs) t) (hes : Separators es) (hg : Derives path (.signature g) fs)
    (ht : t.current.Is .semi) : member? s = .ok (some g) t := by
  obtain ⟨u, hu, hf⟩ := h.split hes.not_eof
  have hu' := hu.path.trans hs
  have hbegin : u.current.token.kind.beginsTypeArgument = true := by
    cases hg with
    | signature hn hc hty =>
      obtain ⟨e, fs, rfl, hk⟩ := hn.begins
      rw [Passes.current hf]
      exact hk
  have hne : ∀ k : TokenKind, k.beginsTypeArgument = false → ¬ u.current.token.kind = k := by
    intro k hk hu
    rw [hu, hk] at hbegin
    cases hbegin
  obtain ⟨n, v, hn, -, hsig⟩ := hg.reads hu' hf (by rw [ht]; rfl)
  unfold member?
  rw [bind_ok (skipSeparators_ok hu hes (hne _ rfl)), kind_bind, if_neg (hne _ rfl)]
  show (declName >>= fun n => signatureOf n >>= fun g => pure (some g)) u = _
  rw [bind_ok hn]
  exact map_ok some hsig

theorem Parse.member?_end {r : Entry} (h : Passes s (es ++ [r]) t) (hes : Separators es)
    (hr : r.Is .braceRight) : member? s = .ok none t := by
  obtain ⟨u, hu, hlast⟩ := h.split hes.not_eof
  obtain ⟨hcur, hrest⟩ := hlast.head_plain hr rfl
  have hk : u.current.token.kind = .braceRight := hcur ▸ hr
  have hne : ¬ u.current.Is .semi := fun hu => by cases hk.symm.trans hu
  unfold member?
  rw [bind_ok (skipSeparators_ok hu hes hne), kind_bind, if_pos hk, hrest.nil]
  rfl

theorem Parse.decl?_ok {d : Decl} (h : Passes s es u) (hes : Separators es)
    (hu : decl u = .ok d t) : decl? s = .ok (some d) t := by
  have hne : ∀ k : TokenKind, k = .semi ∨ k = .eof → ¬ u.current.token.kind = k := by
    intro k hk hcur
    unfold decl at hu
    rw [kind_bind, hcur] at hu
    rcases hk with rfl | rfl <;> cases hu
  unfold decl?
  rw [bind_ok (skipSeparators_ok h hes (hne _ (Or.inl rfl))), kind_bind,
    if_neg (hne _ (Or.inr rfl))]
  exact map_ok some hu

theorem Parse.decl?_end (h : Passes s es t) (hes : Separators es) (ht : t.current.Is .eof) :
    decl? s = .ok none t := by
  have hne : ¬ t.current.Is .semi := fun hk => by cases ht.symm.trans hk
  unfold decl?
  rw [bind_ok (skipSeparators_ok h hes hne), kind_bind, if_pos ht]
  rfl

theorem Parse.decls_end (hs : s.current.Is .eof) : many decl? s = .ok [] s :=
  many_nil takes_decl? (decl?_end (.refl s) (List.forall_mem_nil _) hs)

end Separators

/-- All tokens of a text can be passed, and its end is behind them. -/
theorem Passes.all (s : Parser) (h : ∀ e ∈ s.tokens.entries, ¬ e.Is .eof) :
    ∃ t, Passes s s.tokens.entries t ∧ t.current.Is .eof := by
  generalize hes : s.tokens.entries = es at h
  induction es generalizing s with
  | nil =>
    refine ⟨s, hes ▸ refl s, ?_⟩
    unfold Parser.current Tokens.current
    rw [hes]
    exact s.tokens.last_eof
  | cons e es ih =>
    have hcur : s.current = e := by
      unfold Parser.current Tokens.current
      rw [hes]
      rfl
    have hne : s.current.token.kind ≠ .eof := hcur ▸ h e List.mem_cons_self
    have hrest : s.pass.tokens.entries = es := by
      have heq := Parser.entries_eq hne
      rw [hes] at heq
      exact (List.cons.inj heq).2.symm
    obtain ⟨t, ht, heof⟩ := ih s.pass hrest fun f hf => h f (List.mem_cons_of_mem _ hf)
    exact ⟨t, cons (hcur ▸ one hne) ht, heof⟩

end FrontEnd
