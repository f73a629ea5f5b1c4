import FrontEnd.Proofs.Grammar.Passage

/-!
# What is parsed is derived

A parse that succeeds passes tokens from which its tree is derived.  Repetition and
nesting are settled once, in `yields_many` and `yields_nest`; what is left of each
production is one step after the other.  `yields_file` is the result for whole files.
-/

namespace FrontEnd
namespace Parse

/-- Wherever `x` succeeds it passes tokens that are in the relation `R` to its value. -/
def Yields {α : Type} (x : Parse α) (R : String → List Entry → α → Prop) : Prop :=
  ∀ s t a, x s = .ok a t → ∃ es, Passes s es t ∧ R s.path es a

variable {α : Type}

/-! ## Repetition and nesting -/

theorem many_stops {item : Parse (Option α)} (ht : Takes item) {s t : Parser} {as : List α}
    (h : many item s = .ok as t) : ∃ u, item u = .ok none t := by
  generalize hn : s.left = n
  induction n using Nat.strongRecOn generalizing s as with
  | ind n ih =>
    rw [many_eq ht] at h
    obtain ⟨o, u, hu, he⟩ := bind_eq_ok h
    cases o with
    | none =>
      cases he
      exact ⟨s, hu⟩
    | some a =>
      obtain ⟨bs, v, hv, hb⟩ := bind_eq_ok he
      cases hb
      exact ih _ (hn ▸ ht s u a hu) hv rfl

theorem yields_many {item : Parse (Option α)} {L : String → List Entry → List α → Prop}
    (ht : Takes item)
    (hnone : ∀ s t, item s = .ok none t → ∃ es, Passes s es t ∧ L s.path es [])
    (hsome : ∀ s t a, item s = .ok (some a) t →
      ∃ es, Passes s es t ∧ ∀ fs as, L s.path fs as → L s.path (es ++ fs) (a :: as)) :
    Yields (many item) L := by
  intro s t as h
  generalize hn : s.left = n
  induction n using Nat.strongRecOn generalizing s as with
  | ind n ih =>
    rw [many_eq ht] at h
    obtain ⟨o, u, hu, he⟩ := bind_eq_ok h
    cases o with
    | none =>
      cases he
      exact hnone s _ hu
    | some a =>
      obtain ⟨bs, v, hv, hb⟩ := bind_eq_ok he
      cases hb
      obtain ⟨es, hes, hL⟩ := hsome s u a hu
      obtain ⟨fs, hfs, hbs⟩ := ih _ (hn ▸ ht s u a hu) u bs hv rfl
      rw [hes.path] at hbs
      exact ⟨es ++ fs, hes.trans hfs, hL fs bs hbs⟩

theorem yields_fail {R : String → List Entry → α → Prop} (what : Expectation) :
    Yields (fail what) R := by
  intro s t a h
  cases h

/-- What every level keeps, nesting keeps: past its bound it fails. -/
theorem yields_nestAlong {level : Parse α → Parse α} {stuck : Expectation}
    {R : String → List Entry → α → Prop} (hg : Guarded level)
    (h : ∀ x, Forward x → Yields x R → Yields (level x) R) (left : List Entry) :
    Yields (nestAlong stuck level left) R := by
  induction left with
  | nil => exact h _ (forward_fail stuck) (yields_fail stuck)
  | cons e left ih => exact h _ (forward_nestAlong hg left) ih

theorem yields_nest {level : Parse α → Parse α} {stuck : Expectation}
    {R : String → List Entry → α → Prop} (hg : Guarded level)
    (h : ∀ x, Forward x → Yields x R → Yields (level x) R) : Yields (nest stuck level) R := by
  intro s t a hs
  rw [nest_apply] at hs
  exact yields_nestAlong hg h _ s t a hs

theorem passes_parenthesized {x : Parse α} {R : String → List Entry → α → Prop}
    (hx : Yields x R) {s t : Parser} {a : α} (hs : s.current.Is .parenLeft)
    (h : parenthesized x s = .ok a t) :
    ∃ l es r, l.Is .parenLeft ∧ R s.path es a ∧ r.Is .parenRight ∧
      Passes s (l :: (es ++ [r])) t := by
  have hl : Passes s [s.current] s.advance := .plain hs rfl
  unfold parenthesized at h
  rw [advance_bind] at h
  obtain ⟨b, u, hu, he⟩ := bind_eq_ok h
  obtain ⟨c, v, hv, hr⟩ := bind_eq_ok he
  cases hr
  obtain ⟨es, hes, hR⟩ := hx _ _ _ hu
  obtain ⟨r, hr, -, hpr⟩ := passes_expect rfl hv
  rw [s.path_advance] at hR
  exact ⟨s.current, es, r, hs, hR, hr, hl.cons (hes.trans hpr)⟩

/-! ## Expressions -/

section Expressions

variable {x : Parse Expr}

abbrev ExprOf (path : String) (es : List Entry) (a : Expr) : Prop :=
  Derives path (.expr a) es

theorem yields_operatorOr {ofName : Name → Expr} (hx : Yields x ExprOf) :
    Yields (operatorOr ofName x) fun path es a =>
      (∃ o : Entry, o.IsOperator ∧ es = [o] ∧ a = ofName (o.name path)) ∨
        Derives path (.expr a) es := by
  intro s t a h
  by_cases hs : s.current.IsOperator
  · rw [operatorOr_operator ofName hs] at h
    cases h
    refine ⟨[s.current], .one ?_, Or.inl ⟨s.current, hs, rfl, rfl⟩⟩
    exact TokenKind.ne_eof_of_isPlain (isPlain_of_isOperator hs)
  · rw [operatorOr_expr ofName hs] at h
    obtain ⟨es, hes, hd⟩ := hx _ _ _ h
    exact ⟨es, hes, Or.inr hd⟩

theorem yields_head (hx : Yields x ExprOf) :
    Yields (head x) fun path es a => Derives path (.head a) es := by
  intro s t a h
  unfold head at h
  rw [kind_bind] at h
  by_cases hk : s.current.token.kind = .parenLeft
  · rw [if_pos hk] at h
    obtain ⟨l, es, r, hl, hd, hr, hp⟩ := passes_parenthesized (yields_operatorOr hx) hk h
    rcases hd with ⟨o, ho, rfl, rfl⟩ | hd
    · exact ⟨_, hp, .headOperator hl ho hr⟩
    · exact ⟨_, hp, .headNested hl hd hr⟩
  · rw [if_neg hk] at h
    obtain ⟨n, u, hu, he⟩ := bind_eq_ok h
    cases he
    obtain ⟨e, hi, rfl, hp⟩ := passes_name hu
    exact ⟨[e], hp, .headName hi⟩

theorem yields_argument? (hx : Yields x ExprOf) {s t : Parser} {a : Expr}
    (h : argument? x s = .ok (some a) t) :
    ∃ es, Passes s es t ∧ Derives s.path (.argument a) es := by
  unfold argument? at h
  rw [kind_bind] at h
  cases hk : s.current.token.kind with
  | integer =>
    rw [hk] at h
    obtain ⟨v, u, hu, he⟩ := bind_eq_ok h
    cases he
    obtain ⟨rfl, hp⟩ := passes_integer hk hu
    exact ⟨_, hp, .argumentInteger hk⟩
  | float =>
    rw [hk] at h
    obtain ⟨v, u, hu, he⟩ := bind_eq_ok h
    cases he
    obtain ⟨rfl, hp⟩ := passes_float hk hu
    exact ⟨_, hp, .argumentFloat hk⟩
  | ident =>
    rw [hk] at h
    obtain ⟨n, u, hu, he⟩ := bind_eq_ok h
    cases he
    obtain ⟨e, hi, rfl, hp⟩ := passes_name hu
    exact ⟨[e], hp, .argumentName hi⟩
  | parenLeft =>
    rw [hk] at h
    obtain ⟨b, u, hu, he⟩ := bind_eq_ok h
    cases he
    obtain ⟨l, es, r, hl, hd, hr, hp⟩ := passes_parenthesized (yields_operatorOr hx) hk hu
    rcases hd with ⟨o, ho, rfl, rfl⟩ | hd
    · exact ⟨_, hp, .argumentOperator hl ho hr⟩
    · exact ⟨_, hp, .argumentNested hl hd hr⟩
  | _ =>
    rw [hk] at h
    cases h

theorem argument?_none {s t : Parser} (h : argument? x s = .ok none t) :
    t = s ∧ s.current.token.kind.beginsArgument = false := by
  unfold argument? at h
  rw [kind_bind] at h
  cases hk : s.current.token.kind with
  | integer | float | ident | parenLeft =>
    rw [hk] at h
    obtain ⟨b, u, -, he⟩ := bind_eq_ok h
    cases he
  | _ =>
    rw [hk] at h
    cases h
    exact ⟨rfl, rfl⟩

theorem yields_arguments (hf : Forward x) (hx : Yields x ExprOf) :
    Yields (many (argument? x)) fun path es as => Derives path (.arguments as) es := by
  refine yields_many (takes_argument? hf) ?_ ?_
  · intro s t h
    obtain ⟨rfl, -⟩ := argument?_none h
    exact ⟨[], .refl t, .noArguments⟩
  · intro s t a h
    obtain ⟨es, hp, hd⟩ := yields_argument? hx h
    exact ⟨es, hp, fun fs as has => .moreArguments hd has⟩

theorem yields_application (hf : Forward x) (hx : Yields x ExprOf) :
    Yields (application x) fun path es c => Derives path (.call c) es := by
  intro s t c h
  unfold application at h
  rw [here_bind] at h
  obtain ⟨fn, u, hu, he⟩ := bind_eq_ok h
  obtain ⟨args, v, hv, hc⟩ := bind_eq_ok he
  obtain ⟨es, hes, hd⟩ := yields_head hx _ _ _ hu
  obtain ⟨fs, hfs, hds⟩ := yields_arguments hf hx _ _ _ hv
  rw [hes.path] at hds
  cases es with
  | nil => cases hd
  | cons e es =>
    have hloc : s.here = e.loc s.path := by
      rw [← hes.current]
      rfl
    have happ : c = .applied fn args (e.loc s.path) ∧ v = t := by
      rw [hloc] at hc
      cases fn <;> cases args <;> · cases hc; exact ⟨rfl, rfl⟩
    obtain ⟨rfl, rfl⟩ := happ
    exact ⟨e :: (es ++ fs), hes.trans hfs, .call hd hds⟩

theorem yields_exprLevel (hf : Forward x) (hx : Yields x ExprOf) :
    Yields (exprLevel x) ExprOf := by
  intro s t a h
  unfold exprLevel at h
  rw [kind_bind] at h
  cases hk : s.current.token.kind with
  | integer =>
    rw [hk] at h
    obtain ⟨v, u, hu, he⟩ := bind_eq_ok h
    cases he
    obtain ⟨rfl, hp⟩ := passes_integer hk hu
    exact ⟨_, hp, .integer hk⟩
  | float =>
    rw [hk] at h
    obtain ⟨v, u, hu, he⟩ := bind_eq_ok h
    cases he
    obtain ⟨rfl, hp⟩ := passes_float hk hu
    exact ⟨_, hp, .float hk⟩
  | ident | parenLeft =>
    rw [hk] at h
    obtain ⟨c, u, hu, he⟩ := bind_eq_ok h
    cases he
    obtain ⟨es, hp, hd⟩ := yields_application hf hx _ _ _ hu
    exact ⟨es, hp, .application hd⟩
  | _ =>
    rw [hk] at h
    cases h

end Expressions

theorem yields_expr : Yields expr ExprOf :=
  yields_nest guarded_exprLevel fun _ hf hx => yields_exprLevel hf hx

/-! ## Types -/

section Types

variable {x : Parse Ty}

abbrev TypeOf (path : String) (es : List Entry) (a : Ty) : Prop :=
  Derives path (.type a) es

theorem yields_typeArgument? (hx : Yields x TypeOf) {s t : Parser} {a : Expr}
    (h : typeArgument? x s = .ok (some a) t) :
    ∃ es, Passes s es t ∧ Derives s.path (.typeArgument a) es := by
  unfold typeArgument? at h
  rw [kind_bind] at h
  cases hk : s.current.token.kind with
  | ident =>
    rw [hk] at h
    obtain ⟨n, u, hu, he⟩ := bind_eq_ok h
    cases he
    obtain ⟨e, hi, rfl, hp⟩ := passes_name hu
    exact ⟨[e], hp, .typeArgumentName hi⟩
  | parenLeft =>
    rw [hk] at h
    obtain ⟨b, u, hu, he⟩ := bind_eq_ok h
    cases he
    obtain ⟨l, es, r, hl, hd, hr, hp⟩ := passes_parenthesized hx hk hu
    exact ⟨_, hp, .typeArgumentNested hl hd hr⟩
  | _ =>
    rw [hk] at h
    cases h

theorem typeArgument?_none {s t : Parser} (h : typeArgument? x s = .ok none t) :
    t = s ∧ s.current.token.kind.beginsTypeArgument = false := by
  unfold typeArgument? at h
  rw [kind_bind] at h
  cases hk : s.current.token.kind with
  | ident | parenLeft =>
    rw [hk] at h
    obtain ⟨b, u, -, he⟩ := bind_eq_ok h
    cases he
  | _ =>
    rw [hk] at h
    cases h
    exact ⟨rfl, rfl⟩

theorem yields_typeArguments (hf : Forward x) (hx : Yields x TypeOf) :
    Yields (many (typeArgument? x)) fun path es as => Derives path (.typeArguments as) es := by
  refine yields_many (takes_typeArgument? hf) ?_ ?_
  · intro s t h
    obtain ⟨rfl, -⟩ := typeArgument?_none h
    exact ⟨[], .refl t, .noTypeArguments⟩
  · intro s t a h
    obtain ⟨es, hp, hd⟩ := yields_typeArgument? hx h
    exact ⟨es, hp, fun fs as has => .moreTypeArguments hd has⟩

theorem yields_typeApplication (hf : Forward x) (hx : Yields x TypeOf) :
    Yields (typeApplication x) fun path es c => Derives path (.typeCall c) es := by
  intro s t c h
  unfold typeApplication at h
  rw [here_bind] at h
  obtain ⟨fn, u, hu, he⟩ := bind_eq_ok h
  obtain ⟨args, v, hv, hc⟩ := bind_eq_ok he
  obtain ⟨e, hi, rfl, hp⟩ := passes_name hu
  obtain ⟨fs, hfs, hds⟩ := yields_typeArguments hf hx _ _ _ hv
  rw [hp.path] at hds
  have hloc : s.here = e.loc s.path := by
    rw [← hp.current]
    rfl
  rw [hloc] at hc
  cases hc
  exact ⟨e :: fs, hp.cons hfs, .typeCall hi hds⟩

theorem passes_contextArrow {s t : Parser} {u : Unit} (h : contextArrow s = .ok u t) :
    ∃ a, a.token = ⟨.symbol, "=>"⟩ ∧ Passes s [a] t := by
  obtain ⟨a, ha, -, hp⟩ := single_contextArrow.passes h
  exact ⟨a, ha, hp⟩

theorem yields_arrowTail (hx : Yields x TypeOf) {s t : Parser} {first a : Ty} {e : Entry}
    {es : List Entry} (hd : Derives s.path (.atom first) (e :: es))
    (h : arrowTail x first (e.loc s.path) s = .ok a t) :
    ∃ fs, Passes s fs t ∧ Derives s.path (.type a) (e :: (es ++ fs)) := by
  unfold arrowTail at h
  rw [kind_bind] at h
  by_cases hk : s.current.token.kind = .arrow
  · rw [if_pos hk] at h
    rw [advance_bind] at h
    obtain ⟨b, u, hu, he⟩ := bind_eq_ok h
    cases he
    obtain ⟨gs, hgs, hg⟩ := hx _ _ _ hu
    rw [s.path_advance] at hg
    exact ⟨s.current :: gs, Passes.cons (.plain hk rfl) hgs, .arrow hd hk hg⟩
  · rw [if_neg hk] at h
    cases h
    refine ⟨[], .refl s, ?_⟩
    rw [List.append_nil]
    exact .typeAtom hd

theorem yields_context (hx : Yields x TypeOf) {s t : Parser} {inner a : Ty} {l : Entry}
    {es : List Entry} (hl : l.Is .parenLeft) (hd : Derives s.path (.type inner) es)
    (h : context x inner (l.loc s.path) s = .ok a t) :
    ∃ fs, Passes s fs t ∧ Derives s.path (.type a) (l :: (es ++ fs)) := by
  unfold context at h
  obtain ⟨ns, u, hu, h₁⟩ := bind_eq_ok h
  have hns : inner.fieldNames = .ok ns ∧ u = s := by
    cases hf : inner.fieldNames with
    | ok ms =>
      rw [hf] at hu
      cases hu
      exact ⟨rfl, rfl⟩
    | error e =>
      rw [hf] at hu
      cases hu
  obtain ⟨hn, rfl⟩ := hns
  obtain ⟨c, v, hv, h₂⟩ := bind_eq_ok h₁
  obtain ⟨shared, w, hw, h₃⟩ := bind_eq_ok h₂
  obtain ⟨r, y, hy, h₄⟩ := bind_eq_ok h₃
  obtain ⟨d, z, hz, h₅⟩ := bind_eq_ok h₄
  obtain ⟨result, q, hq, h₆⟩ := bind_eq_ok h₅
  cases h₆
  obtain ⟨c, hc, -, hpc⟩ := passes_expect rfl hv
  obtain ⟨fs, hfs, hdf⟩ := hx _ _ _ hw
  obtain ⟨r, hr, -, hpr⟩ := passes_expect rfl hy
  obtain ⟨b, hb, hpb⟩ := passes_contextArrow hz
  obtain ⟨gs, hgs, hdg⟩ := hx _ _ _ hq
  rw [hpc.path] at hdf
  rw [hpb.path, hpr.path, hfs.path, hpc.path] at hdg
  exact ⟨c :: (fs ++ r :: b :: gs), hpc.cons (hfs.trans (hpr.cons (hpb.cons hgs))),
    .context hl hd hn hc hdf hr hb hdg⟩

theorem yields_typeLevel (hf : Forward x) (hx : Yields x TypeOf) :
    Yields (typeLevel x) TypeOf := by
  intro s t a h
  unfold typeLevel at h
  rw [here_bind, kind_bind] at h
  cases hk : s.current.token.kind with
  | ident =>
    rw [hk] at h
    obtain ⟨c, u, hu, he⟩ := bind_eq_ok h
    obtain ⟨es, hes, hd⟩ := yields_typeApplication hf hx _ _ _ hu
    cases es with
    | nil => cases hd
    | cons e es =>
      have hloc : s.here = e.loc u.path := by
        rw [← hes.current, hes.path]
        rfl
      rw [hloc] at he
      rw [← hes.path] at hd
      obtain ⟨fs, hfs, hdf⟩ := yields_arrowTail hx (.atomCall hd) he
      rw [hes.path] at hdf
      exact ⟨e :: (es ++ fs), hes.trans hfs, hdf⟩
  | parenLeft =>
    rw [hk] at h
    have hl : Passes s [s.current] s.advance := .plain hk rfl
    dsimp only at h
    rw [advance_bind] at h
    obtain ⟨inner, u, hu, he⟩ := bind_eq_ok h
    obtain ⟨es, hes, hd⟩ := hx _ _ _ hu
    have hpath : u.path = s.path := (hl.cons hes).path
    have hloc : s.here = s.current.loc u.path := by
      rw [hpath]
      rfl
    rw [hl.path, ← hpath] at hd
    rw [hloc] at he
    rw [kind_bind] at he
    by_cases hc : u.current.token.kind = .colon
    · rw [if_pos hc] at he
      obtain ⟨fs, hfs, hdf⟩ := yields_context hx hk hd he
      rw [hpath] at hdf
      exact ⟨s.current :: (es ++ fs), hl.cons (hes.trans hfs), hdf⟩
    · rw [if_neg hc] at he
      obtain ⟨b, v, hv, he⟩ := bind_eq_ok he
      obtain ⟨r, hr, -, hpr⟩ := passes_expect rfl hv
      rw [← hpr.path] at he hd
      obtain ⟨fs, hfs, hdf⟩ := yields_arrowTail hx (.atomNested hk hd hr) he
      rw [hpr.path, hpath] at hdf
      refine ⟨s.current :: (es ++ [r] ++ fs), ?_, hdf⟩
      exact hl.cons ((hes.trans hpr).trans hfs)
  | _ =>
    rw [hk] at h
    cases h

end Types

theorem yields_type : Yields type TypeOf :=
  yields_nest guarded_typeLevel fun _ hf hx => yields_typeLevel hf hx

/-! ## Patterns -/

theorem yields_pattern? {s t : Parser} {a : Pattern} (h : pattern? s = .ok (some a) t) :
    ∃ es, Passes s es t ∧ Derives s.path (.pattern a) es := by
  unfold pattern? at h
  rw [kind_bind] at h
  cases hk : s.current.token.kind with
  | integer =>
    rw [hk] at h
    obtain ⟨v, u, hu, he⟩ := bind_eq_ok h
    cases he
    obtain ⟨rfl, hp⟩ := passes_integer hk hu
    exact ⟨_, hp, .patternInteger hk⟩
  | float =>
    rw [hk] at h
    obtain ⟨v, u, hu, he⟩ := bind_eq_ok h
    cases he
    obtain ⟨rfl, hp⟩ := passes_float hk hu
    exact ⟨_, hp, .patternFloat hk⟩
  | ident =>
    rw [hk] at h
    obtain ⟨n, u, hu, he⟩ := bind_eq_ok h
    cases he
    obtain ⟨e, hi, rfl, hp⟩ := passes_name hu
    exact ⟨[e], hp, .patternName hi⟩
  | parenLeft =>
    rw [hk] at h
    obtain ⟨c, u, hu, he⟩ := bind_eq_ok h
    cases he
    obtain ⟨l, es, r, hl, hd, hr, hp⟩ :=
      passes_parenthesized (yields_application closed_forward.expr yields_expr) hk hu
    exact ⟨_, hp, .patternCall hl hd hr⟩
  | _ =>
    rw [hk] at h
    cases h

theorem pattern?_none {s t : Parser} (h : pattern? s = .ok none t) :
    t = s ∧ s.current.token.kind.beginsArgument = false := by
  unfold pattern? at h
  rw [kind_bind] at h
  cases hk : s.current.token.kind with
  | integer | float | ident | parenLeft =>
    rw [hk] at h
    obtain ⟨b, u, -, he⟩ := bind_eq_ok h
    cases he
  | _ =>
    rw [hk] at h
    cases h
    exact ⟨rfl, rfl⟩

theorem yields_patterns :
    Yields (many pattern?) fun path es ps => Derives path (.patterns ps) es := by
  refine yields_many takes_pattern? ?_ ?_
  · intro s t h
    obtain ⟨rfl, -⟩ := pattern?_none h
    exact ⟨[], .refl t, .noPatterns⟩
  · intro s t a h
    obtain ⟨es, hp, hd⟩ := yields_pattern? h
    exact ⟨es, hp, fun fs ps hps => .morePatterns hd hps⟩

/-! ## Declarations -/

/-- What can begin an expression can begin a pattern, so no body is read where the
patterns end. -/
theorem expr_begins {s t : Parser} {a : Expr} (h : expr s = .ok a t) :
    s.current.token.kind.beginsArgument = true := by
  rw [expr_eq] at h
  unfold exprLevel at h
  rw [kind_bind] at h
  cases hk : s.current.token.kind with
  | integer | float | ident | parenLeft => rfl
  | _ =>
    rw [hk] at h
    cases h

theorem yields_declName : Yields declName fun path es n => Derives path (.declName n) es := by
  intro s t n h
  unfold declName at h
  rw [kind_bind] at h
  by_cases hk : s.current.token.kind = .parenLeft
  · rw [if_pos hk] at h
    have ho : Yields operator fun path es n =>
        ∃ o : Entry, o.IsOperator ∧ es = [o] ∧ n = o.name path := by
      intro s t n h
      obtain ⟨o, ho, rfl, hp⟩ := passes_operator h
      exact ⟨[o], hp, o, ho, rfl, rfl⟩
    obtain ⟨l, es, r, hl, ⟨o, ho, rfl, rfl⟩, hr, hp⟩ := passes_parenthesized ho hk h
    exact ⟨_, hp, .declOperator hl ho hr⟩
  · rw [if_neg hk] at h
    obtain ⟨e, hi, rfl, hp⟩ := passes_name h
    exact ⟨[e], hp, .declIdent hi⟩

theorem yields_signatureOf {s t : Parser} {n : Name} {g : Signature} {es : List Entry}
    (hn : Derives s.path (.declName n) es) (h : signatureOf n s = .ok g t) :
    ∃ fs, Passes s fs t ∧ Derives s.path (.signature g) (es ++ fs) := by
  unfold signatureOf at h
  obtain ⟨c, u, hu, he⟩ := bind_eq_ok h
  obtain ⟨ty, v, hv, hg⟩ := bind_eq_ok he
  cases hg
  obtain ⟨c, hc, -, hp⟩ := passes_expect rfl hu
  obtain ⟨fs, hfs, hd⟩ := yields_type _ _ _ hv
  have hd' : Derives s.path (.type ty) fs := by rwa [← hp.path]
  exact ⟨c :: fs, hp.cons hfs, .signature hn hc hd'⟩

/-- The parameters of a function end at a token that begins no expression, which must be
the sign before the body. -/
theorem yields_functionOf {s t : Parser} {n : Name} {f : Function} {es : List Entry}
    (hn : Derives s.path (.declName n) es) (h : functionOf n s = .ok f t) :
    ∃ fs, Passes s fs t ∧ Derives s.path (.decl (.function f)) (es ++ fs) := by
  unfold functionOf at h
  obtain ⟨ps, u, hu, h₁⟩ := bind_eq_ok h
  obtain ⟨w, v, hv, h₂⟩ := bind_eq_ok h₁
  obtain ⟨x, y, hy, h₃⟩ := bind_eq_ok h₂
  cases h₃
  obtain ⟨fs, hfs, hps⟩ := yields_patterns _ _ _ hu
  obtain ⟨q, hq⟩ := many_stops takes_pattern? hu
  obtain ⟨rfl, hstop⟩ := pattern?_none hq
  by_cases hk : u.current.Is .assign
  · rw [skip_pass rfl hk] at hv
    cases hv
    have ha : Passes u [u.current] u.pass := .one (by rw [hk]; decide)
    obtain ⟨gs, hgs, hx⟩ := yields_expr _ _ _ hy
    have hx' : Derives s.path (.expr x) gs := by rwa [← hfs.path, ← ha.path]
    exact ⟨fs ++ u.current :: gs, hfs.trans (ha.cons hgs), .function hn hps hk hx'⟩
  · rw [skip_stop hk] at hv
    cases hv
    rw [expr_begins hy] at hstop
    cases hstop

theorem yields_separators : Yields skipSeparators fun _ es _ => Separators es := by
  have hmany : Yields (many separator?) fun _ es _ => Separators es := by
    refine yields_many takes_separator? ?_ ?_
    · intro s t h
      rcases optional_separator.passes (by decide) h with ⟨e, -, he, -⟩ | ⟨-, -, rfl⟩
      · cases he
      · exact ⟨[], .refl t, List.forall_mem_nil _⟩
    · intro s t a h
      rcases optional_separator.passes (by decide) h with ⟨e, he, -, hp⟩ | ⟨-, hn, -⟩
      · exact ⟨[e], hp, fun fs _ hfs => List.forall_mem_cons.2 ⟨he, hfs⟩⟩
      · cases hn
  intro s t a h
  obtain ⟨as, u, hu, he⟩ := bind_eq_ok h
  cases he
  exact hmany _ _ _ hu

theorem yields_names : Yields (many name?) fun path es ns => Derives path (.names ns) es := by
  refine yields_many takes_name? ?_ ?_
  · intro s t h
    rcases optional_name.passes (by decide) h with ⟨e, -, he, -⟩ | ⟨-, -, rfl⟩
    · cases he
    · exact ⟨[], .refl t, .noNames⟩
  · intro s t a h
    rcases optional_name.passes (by decide) h with ⟨e, he, ha, hp⟩ | ⟨-, hn, -⟩
    · cases ha
      exact ⟨[e], hp, fun fs ns hns => .moreNames he hns⟩
    · cases hn

/-- A block is closed by the item that yields no signature. -/
theorem yields_members :
    Yields (many member?) fun path es ss =>
      ∃ fs r, es = fs ++ [r] ∧ r.Is .braceRight ∧ Derives path (.members ss) fs := by
  refine yields_many takes_member? ?_ ?_
  · intro s t h
    obtain ⟨w, u, hu, he⟩ := bind_eq_ok h
    obtain ⟨es, hes, hsep⟩ := yields_separators _ _ _ hu
    rw [kind_bind] at he
    by_cases hk : u.current.token.kind = .braceRight
    · rw [if_pos hk] at he
      cases he
      exact ⟨es ++ [u.current], hes.trans (.plain hk rfl), es, u.current, rfl, hk,
        .noMembers hsep⟩
    · rw [if_neg hk] at he
      obtain ⟨n, v, -, hn⟩ := bind_eq_ok he
      obtain ⟨g, y, -, hg⟩ := bind_eq_ok hn
      cases hg
  · intro s t g h
    obtain ⟨w, u, hu, he⟩ := bind_eq_ok h
    obtain ⟨es, hes, hsep⟩ := yields_separators _ _ _ hu
    rw [kind_bind] at he
    by_cases hk : u.current.token.kind = .braceRight
    · rw [if_pos hk] at he
      cases he
    · rw [if_neg hk] at he
      obtain ⟨n, v, hv, hn⟩ := bind_eq_ok he
      obtain ⟨g', y, hy, hg⟩ := bind_eq_ok hn
      cases hg
      obtain ⟨fs, hfs, hdn⟩ := yields_declName _ _ _ hv
      rw [← hfs.path] at hdn
      obtain ⟨gs, hgs, hdg⟩ := yields_signatureOf hdn hy
      rw [hfs.path, hes.path] at hdg
      refine ⟨es ++ (fs ++ gs), hes.trans (hfs.trans hgs), ?_⟩
      rintro _ ss ⟨ks, r, rfl, hr, hd⟩
      refine ⟨es ++ (fs ++ gs ++ ks), r, ?_, hr, .moreMembers hsep hdg hd⟩
      simp only [List.append_assoc]

theorem yields_blockAt (loc : Location) :
    Yields (blockAt loc) fun path es b => b.loc = loc ∧ Derives path (.block b) es := by
  intro s t b h
  unfold blockAt at h
  obtain ⟨n, u, hu, h₁⟩ := bind_eq_ok h
  obtain ⟨ns, v, hv, h₂⟩ := bind_eq_ok h₁
  obtain ⟨l, w, hw, h₃⟩ := bind_eq_ok h₂
  obtain ⟨ss, y, hy, h₄⟩ := bind_eq_ok h₃
  cases h₄
  obtain ⟨e, hi, rfl, hp⟩ := passes_name hu
  obtain ⟨es, hes, hns⟩ := yields_names _ _ _ hv
  obtain ⟨l, hl, -, hpl⟩ := passes_expect rfl hw
  obtain ⟨_, hfs, fs, r, rfl, hr, hss⟩ := yields_members _ _ _ hy
  rw [hp.path] at hns
  rw [hpl.path, hes.path, hp.path] at hss
  exact ⟨_, hp.cons (hes.trans (hpl.cons hfs)), rfl, .block hi hns hl hss hr⟩

theorem yields_block {k : TokenKind} (hk : k.isPlain = true) {s t : Parser} {b : Block}
    (hs : s.current.Is k) (h : block s = .ok b t) :
    ∃ w es, w.Is k ∧ Passes s (w :: es) t ∧ b.loc = w.loc s.path ∧
      Derives s.path (.block b) es := by
  unfold block at h
  rw [here_bind, advance_bind] at h
  have hw : Passes s [s.current] s.advance := .plain hs hk
  obtain ⟨es, hes, hloc, hd⟩ := yields_blockAt _ _ _ _ h
  rw [hw.path] at hd
  exact ⟨s.current, es, hs, hw.cons hes, hloc, hd⟩

theorem yields_decl : Yields decl fun path es d => Derives path (.decl d) es := by
  intro s t d h
  unfold decl at h
  rw [kind_bind] at h
  cases hk : s.current.token.kind with
  | typeWord =>
    rw [hk] at h
    obtain ⟨b, u, hu, he⟩ := bind_eq_ok h
    cases he
    obtain ⟨w, es, hw, hp, hloc, hd⟩ := yields_block rfl hk hu
    exact ⟨w :: es, hp, .enumeration hw hd hloc⟩
  | sealWord =>
    rw [hk] at h
    obtain ⟨b, u, hu, he⟩ := bind_eq_ok h
    cases he
    obtain ⟨w, es, hw, hp, hloc, hd⟩ := yields_block rfl hk hu
    exact ⟨w :: es, hp, .sealed hw hd hloc⟩
  | ident | parenLeft =>
    rw [hk] at h
    obtain ⟨n, u, hu, he⟩ := bind_eq_ok h
    obtain ⟨es, hes, hn⟩ := yields_declName _ _ _ hu
    rw [← hes.path] at hn
    unfold declOf at he
    rw [kind_bind] at he
    cases hc : u.current.token.kind with
    | colon =>
      rw [hc] at he
      obtain ⟨g, v, hv, hg⟩ := bind_eq_ok he
      cases hg
      obtain ⟨fs, hfs, hd⟩ := yields_signatureOf hn hv
      rw [hes.path] at hd
      exact ⟨es ++ fs, hes.trans hfs, .declSignature hd⟩
    | ident | assign | parenLeft | integer | float =>
      rw [hc] at he
      obtain ⟨f, v, hv, hf⟩ := bind_eq_ok he
      cases hf
      obtain ⟨fs, hfs, hd⟩ := yields_functionOf hn hv
      rw [hes.path] at hd
      exact ⟨es ++ fs, hes.trans hfs, hd⟩
    | _ =>
      rw [hc] at he
      cases he
  | _ =>
    rw [hk] at h
    cases h

theorem decl?_some {s t : Parser} {d : Decl} (h : decl? s = .ok (some d) t) :
    ∃ u, skipSeparators s = .ok () u ∧ decl u = .ok d t := by
  obtain ⟨w, u, hu, he⟩ := bind_eq_ok h
  rw [kind_bind] at he
  by_cases hk : u.current.token.kind = .eof
  · rw [if_pos hk] at he
    cases he
  · rw [if_neg hk] at he
    obtain ⟨e, v, hv, hd⟩ := bind_eq_ok he
    cases hd
    exact ⟨u, hu, hv⟩

theorem yields_decls : Yields (many decl?) fun path es ds => Derives path (.decls ds) es := by
  refine yields_many takes_decl? ?_ ?_
  · intro s t h
    obtain ⟨w, u, hu, he⟩ := bind_eq_ok h
    obtain ⟨es, hes, hsep⟩ := yields_separators _ _ _ hu
    rw [kind_bind] at he
    by_cases hk : u.current.token.kind = .eof
    · rw [if_pos hk] at he
      cases he
      exact ⟨es, hes, .noDecls hsep⟩
    · rw [if_neg hk] at he
      obtain ⟨d, v, -, hd⟩ := bind_eq_ok he
      cases hd
  · intro s t d h
    obtain ⟨u, hu, hd⟩ := decl?_some h
    obtain ⟨es, hes, hsep⟩ := yields_separators _ _ _ hu
    obtain ⟨fs, hfs, hdd⟩ := yields_decl _ _ _ hd
    rw [hes.path] at hdd
    refine ⟨es ++ fs, hes.trans hfs, fun gs ds hds => ?_⟩
    rw [List.append_assoc]
    exact .moreDecls hsep hdd hds

/-- The declarations of a file end where the text does. -/
theorem decl?_none {s t : Parser} (h : decl? s = .ok none t) : t.current.Is .eof := by
  obtain ⟨w, u, -, he⟩ := bind_eq_ok h
  rw [kind_bind] at he
  by_cases hk : u.current.token.kind = .eof
  · rw [if_pos hk] at he
    cases he
    exact hk
  · rw [if_neg hk] at he
    obtain ⟨d, v, -, hd⟩ := bind_eq_ok he
    cases hd

theorem yields_file {s t : Parser} {f : File} (h : file s = .ok f t) :
    ∃ es, Passes s es t ∧ Derives s.path (.decls f.decls) es ∧ t.current.Is .eof ∧
      f = ⟨none, f.decls, t.here, s.here⟩ := by
  unfold file at h
  rw [here_bind] at h
  obtain ⟨ds, u, hu, he⟩ := bind_eq_ok h
  rw [here_bind] at he
  cases he
  obtain ⟨es, hes, hd⟩ := yields_decls _ _ _ hu
  obtain ⟨v, hv⟩ := many_stops takes_decl? hu
  exact ⟨es, hes, hd, decl?_none hv, rfl⟩

end Parse
end FrontEnd
