import FrontEnd.Grammar.Progress

/-!
# The equations of the grammar

Expressions and types are read by one level of the grammar with the same thing in its
place for what is nested in it: `expr_eq` and `type_eq`.  Together with `many_eq`, whose
condition `takes_argument?` and its like establish, they are all that a proof needs to
follow the grammar from token to token.
-/

namespace FrontEnd
namespace Parse

variable {α : Type}

/-! ## Literals -/

theorem left_literal {value : String → Except LiteralError α} {tooLarge : String → Problem}
    {s t : Parser} {a : Converted α} (e : literal value tooLarge s = .ok a t) :
    t.left = s.advance.left := by
  unfold literal at e
  rw [here_bind, advance_bind] at e
  cases hv : value s.current.token.lexeme with
  | ok v =>
    simp only [hv] at e
    cases e
    rfl
  | error b =>
    cases b <;>
    · simp only [hv] at e
      cases e
      rfl

theorem literal_lt {value : String → Except LiteralError α} {tooLarge : String → Problem}
    {s t : Parser} {a : Converted α} (hs : s.current.token.kind ≠ .eof)
    (e : literal value tooLarge s = .ok a t) : t.left < s.left :=
  left_literal e ▸ Parser.left_advance_lt hs

/-! ## Expressions -/

section Expressions

variable {x y : Parse Expr} {ofName : Name → Expr}

/-- Looking whether an operator follows takes nothing. -/
theorem atOperator_eq (s : Parser) : ∃ b, atOperator s = .ok b s := by
  unfold atOperator
  rw [kind_bind]
  cases s.current.token.kind <;> exact ⟨_, rfl⟩

theorem operatorOr_congr_at {s : Parser} (h : x s = y s) :
    operatorOr ofName x s = operatorOr ofName y s :=
  bind_congr_at rfl fun b t ht => by
    obtain ⟨c, hc⟩ := atOperator_eq s
    cases hc.symm.trans ht
    cases b with
    | true => rfl
    | false => exact h

/-- What is nested in parentheses is read after a token has been taken. -/
theorem head_congr_at {s : Parser} (h : ∀ t, t.left < s.left → x t = y t) :
    head x s = head y s :=
  bind_congr_at rfl fun k t ht => by
    cases ht
    split
    · next hk =>
      exact parenthesized_congr_at (by simp [hk]) fun t ht => operatorOr_congr_at (h t ht)
    · rfl

theorem argument?_congr_at {s : Parser} (h : ∀ t, t.left < s.left → x t = y t) :
    argument? x s = argument? y s :=
  bind_congr_at rfl fun k t ht => by
    cases ht
    cases hk : s.current.token.kind with
    | parenLeft =>
      exact bind_congr_at (parenthesized_congr_at (by simp [hk]) fun t ht =>
        operatorOr_congr_at (h t ht)) fun _ _ _ => rfl
    | _ => rfl

theorem application_congr_at {s : Parser} (hy : Forward y)
    (h : ∀ t, t.left < s.left → x t = y t) : application x s = application y s :=
  bind_congr_at rfl fun _ t ht => by
    cases ht
    refine bind_congr_at (head_congr_at h) fun fn u hu => ?_
    have hle := (closed_forward.head hy).of_ok hu
    refine bind_congr_at ?_ fun _ _ _ => rfl
    exact many_congr_at (closed_forward.argument? hy) fun v hv =>
      argument?_congr_at fun w hw => h w (by omega)

theorem exprLevel_congr_at {s : Parser} (hy : Forward y)
    (h : ∀ t, t.left < s.left → x t = y t) : exprLevel x s = exprLevel y s :=
  bind_congr_at rfl fun k t ht => by
    cases ht
    cases s.current.token.kind with
    | ident => exact bind_congr_at (application_congr_at hy h) fun _ _ _ => rfl
    | parenLeft => exact bind_congr_at (application_congr_at hy h) fun _ _ _ => rfl
    | _ => rfl

theorem guarded_exprLevel : Guarded exprLevel where
  forward _ h := closed_forward.exprLevel h
  congr _ _ _ _ hy h := exprLevel_congr_at hy h

theorem expr_eq : expr = exprLevel expr :=
  nest_eq guarded_exprLevel

theorem head_lt (hx : Forward x) {s t : Parser} {a : Expr} (e : head x s = .ok a t) :
    t.left < s.left := by
  unfold head at e
  rw [kind_bind] at e
  by_cases hk : s.current.token.kind = .parenLeft
  · rw [if_pos hk] at e
    exact parenthesized_lt (closed_forward.operatorOr hx) (by simp [hk]) e
  · rw [if_neg hk] at e
    obtain ⟨n, u, hu, he⟩ := bind_eq_ok e
    cases he
    exact name_lt hu

theorem takes_argument? (hx : Forward x) : Takes (argument? x) := by
  intro s t a e
  unfold argument? at e
  rw [kind_bind] at e
  cases hk : s.current.token.kind with
  | integer =>
    rw [hk] at e
    exact bind_lt (fun _ _ => literal_lt (by simp [hk])) (fun _ => forward_pure _) e
  | float =>
    rw [hk] at e
    exact bind_lt (fun _ _ => literal_lt (by simp [hk])) (fun _ => forward_pure _) e
  | ident =>
    rw [hk] at e
    exact bind_lt (fun _ _ => name_lt) (fun _ => forward_pure _) e
  | parenLeft =>
    rw [hk] at e
    exact bind_lt (fun _ _ => parenthesized_lt (closed_forward.operatorOr hx) (by simp [hk]))
      (fun _ => forward_pure _) e
  | _ =>
    rw [hk] at e
    cases e

theorem application_lt (hx : Forward x) {s t : Parser} {c : Call}
    (e : application x s = .ok c t) : t.left < s.left := by
  refine bind_lt (fun _ _ => head_lt hx) (fun fn => ?_) ((here_bind _ s).symm.trans e)
  exact forward_bind (closed_forward.many (closed_forward.argument? hx)) fun args => by
    cases fn <;> cases args <;> exact forward_pure _

end Expressions

/-! ## Patterns -/

theorem takes_pattern? : Takes pattern? := by
  intro s t a e
  unfold pattern? at e
  rw [kind_bind] at e
  cases hk : s.current.token.kind with
  | integer =>
    rw [hk] at e
    exact bind_lt (fun _ _ => literal_lt (by simp [hk])) (fun _ => forward_pure _) e
  | float =>
    rw [hk] at e
    exact bind_lt (fun _ _ => literal_lt (by simp [hk])) (fun _ => forward_pure _) e
  | ident =>
    rw [hk] at e
    exact bind_lt (fun _ _ => name_lt) (fun _ => forward_pure _) e
  | parenLeft =>
    rw [hk] at e
    have happ := closed_forward.application closed_forward.expr
    exact bind_lt (fun _ _ => parenthesized_lt happ (by simp [hk])) (fun _ => forward_pure _) e
  | _ =>
    rw [hk] at e
    cases e

/-! ## Types -/

section Types

variable {x y : Parse Ty}

theorem takes_typeArgument? (hx : Forward x) : Takes (typeArgument? x) := by
  intro s t a e
  unfold typeArgument? at e
  rw [kind_bind] at e
  cases hk : s.current.token.kind with
  | ident =>
    rw [hk] at e
    exact bind_lt (fun _ _ => name_lt) (fun _ => forward_pure _) e
  | parenLeft =>
    rw [hk] at e
    exact bind_lt (fun _ _ => parenthesized_lt hx (by simp [hk])) (fun _ => forward_pure _) e
  | _ =>
    rw [hk] at e
    cases e

theorem typeArgument?_congr_at {s : Parser} (h : ∀ t, t.left < s.left → x t = y t) :
    typeArgument? x s = typeArgument? y s :=
  bind_congr_at rfl fun k t ht => by
    cases ht
    cases hk : s.current.token.kind with
    | parenLeft =>
      exact bind_congr_at (parenthesized_congr_at (by simp [hk]) h) fun _ _ _ => rfl
    | _ => rfl

theorem typeApplication_congr_at {s : Parser} (hy : Forward y)
    (h : ∀ t, t.left < s.left → x t = y t) : typeApplication x s = typeApplication y s :=
  bind_congr_at rfl fun _ t ht => by
    cases ht
    refine bind_congr_at rfl fun n u hu => bind_congr_at ?_ fun _ _ _ => rfl
    have hlt := name_lt hu
    exact many_congr_at (closed_forward.typeArgument? hy) fun v hv =>
      typeArgument?_congr_at fun w hw => h w (by omega)

theorem forward_fieldNames (inner : Ty) :
    Forward (MonadExcept.ofExcept inner.fieldNames : Parse (List Name)) := by
  cases inner.fieldNames with
  | ok names => exact forward_pure _
  | error e => exact forward_throw _

theorem forward_context (h : Forward x) (inner : Ty) (loc : Location) :
    Forward (context x inner loc) :=
  forward_bind (forward_fieldNames inner) fun names => closed_forward.contextTail h names loc

/-- What follows an arrow is read after a token has been taken. -/
theorem arrowTail_congr_at {s : Parser} {first : Ty} {loc : Location}
    (h : ∀ t, t.left < s.left → x t = y t) : arrowTail x first loc s = arrowTail y first loc s :=
  bind_congr_at rfl fun k t ht => by
    cases ht
    split
    · next hk =>
      refine bind_congr_at rfl fun _ u hu => ?_
      cases hu
      exact bind_congr_at (h _ (Parser.left_advance_lt (by simp [hk]))) fun _ _ _ => rfl
    · rfl

theorem context_congr_at {s : Parser} {inner : Ty} {loc : Location} (hy : Forward y)
    (h : ∀ t, t.left ≤ s.left → x t = y t) : context x inner loc s = context y inner loc s := by
  refine bind_congr_at rfl fun names t ht => bind_congr_at rfl fun _ u hu =>
    bind_congr_at (h _ ?_) fun shared v hv => bind_congr_at rfl fun _ w hw =>
      bind_congr_at rfl fun _ z hz => bind_congr_at (h _ ?_) fun _ _ _ => rfl
  · have := (forward_fieldNames inner).of_ok ht
    have := (closed_forward.expect _).of_ok hu
    omega
  · have := (forward_fieldNames inner).of_ok ht
    have := (closed_forward.expect _).of_ok hu
    have := hy.of_ok hv
    have := (closed_forward.expect _).of_ok hw
    have := closed_forward.contextArrow.of_ok hz
    omega

theorem forward_typeLevel (h : Forward x) : Forward (typeLevel x) :=
  forward_bind closed_forward.here fun _ => forward_bind closed_forward.kind fun k => by
    cases k with
    | ident =>
      exact forward_bind (closed_forward.typeApplication h) fun _ => closed_forward.arrowTail h _ _
    | parenLeft =>
      refine forward_bind forward_advance fun _ => forward_bind h fun inner =>
        forward_bind closed_forward.kind fun _ => Closed.choice (forward_context h inner _) ?_
      exact forward_bind (closed_forward.expect _) fun _ => closed_forward.arrowTail h _ _
    | _ => exact forward_fail _

theorem typeLevel_congr_at {s : Parser} (hy : Forward y)
    (h : ∀ t, t.left < s.left → x t = y t) : typeLevel x s = typeLevel y s :=
  bind_congr_at rfl fun loc t ht => by
    cases ht
    refine bind_congr_at rfl fun k t ht => ?_
    cases ht
    cases hk : s.current.token.kind with
    | ident =>
      refine bind_congr_at (typeApplication_congr_at hy h) fun c u hu => ?_
      have hle := (closed_forward.typeApplication hy).of_ok hu
      exact arrowTail_congr_at fun v hv => h v (by omega)
    | parenLeft =>
      refine bind_congr_at rfl fun _ t ht => ?_
      cases ht
      have hlt := Parser.left_advance_lt (p := s) (by simp [hk])
      refine bind_congr_at (h _ hlt) fun inner u hu => ?_
      have hle := hy.of_ok hu
      refine bind_congr_at rfl fun k t ht => ?_
      cases ht
      split
      · exact context_congr_at hy fun v hv => h v (by omega)
      · refine bind_congr_at rfl fun _ v hv => arrowTail_congr_at fun w hw => h w ?_
        have := (closed_forward.expect _).of_ok hv
        omega
    | _ => rfl

theorem guarded_typeLevel : Guarded typeLevel where
  forward _ h := forward_typeLevel h
  congr _ _ _ _ hy h := typeLevel_congr_at hy h

end Types

theorem type_eq : type = typeLevel type :=
  nest_eq guarded_typeLevel

theorem forward_type : Forward type :=
  forward_nest guarded_typeLevel

/-! ## Declarations -/

theorem takes_separator? : Takes separator? := by
  intro s t a e
  unfold separator? at e
  rw [kind_bind] at e
  by_cases hk : s.current.token.kind = .semi
  · rw [if_pos hk] at e
    cases e
    exact Parser.left_advance_lt (by simp [hk])
  · rw [if_neg hk] at e
    cases e

theorem takes_name? : Takes name? := by
  intro s t a e
  unfold name? at e
  rw [kind_bind] at e
  by_cases hk : s.current.token.kind = .ident
  · rw [if_pos hk] at e
    exact bind_lt (fun _ _ => name_lt) (fun _ => forward_pure _) e
  · rw [if_neg hk] at e
    cases e

theorem declName_lt {s t : Parser} {n : Name} (e : declName s = .ok n t) : t.left < s.left := by
  unfold declName at e
  rw [kind_bind] at e
  by_cases hk : s.current.token.kind = .parenLeft
  · rw [if_pos hk] at e
    exact parenthesized_lt closed_forward.operator (by simp [hk]) e
  · rw [if_neg hk] at e
    exact name_lt e

theorem takes_member? : Takes member? := by
  intro s t a e
  obtain ⟨_, u, hu, he⟩ := bind_eq_ok e
  have hle := closed_forward.skipSeparators.of_ok hu
  rw [kind_bind] at he
  by_cases hk : u.current.token.kind = .braceRight
  · rw [if_pos hk] at he
    cases he
  · rw [if_neg hk] at he
    have := bind_lt (fun _ _ => declName_lt)
      (fun _ => forward_bind (closed_forward.signatureOf forward_type _) fun _ => forward_pure _) he
    omega

theorem block_lt {s t : Parser} {b : Block} (hs : s.current.token.kind ≠ .eof)
    (e : block s = .ok b t) : t.left < s.left := by
  unfold block at e
  rw [here_bind, advance_bind] at e
  have hle := (closed_forward.blockAt forward_type _).of_ok e
  exact Nat.lt_of_le_of_lt hle (Parser.left_advance_lt hs)

theorem decl_lt {s t : Parser} {d : Decl} (e : decl s = .ok d t) : t.left < s.left := by
  unfold decl at e
  rw [kind_bind] at e
  cases hk : s.current.token.kind with
  | typeWord =>
    rw [hk] at e
    exact bind_lt (fun _ _ => block_lt (by simp [hk])) (fun _ => forward_pure _) e
  | sealWord =>
    rw [hk] at e
    exact bind_lt (fun _ _ => block_lt (by simp [hk])) (fun _ => forward_pure _) e
  | ident =>
    rw [hk] at e
    exact bind_lt (fun _ _ => declName_lt) (closed_forward.declOf forward_type) e
  | parenLeft =>
    rw [hk] at e
    exact bind_lt (fun _ _ => declName_lt) (closed_forward.declOf forward_type) e
  | _ =>
    rw [hk] at e
    cases e

theorem takes_decl? : Takes decl? := by
  intro s t a e
  obtain ⟨_, u, hu, he⟩ := bind_eq_ok e
  have hle := closed_forward.skipSeparators.of_ok hu
  rw [kind_bind] at he
  by_cases hk : u.current.token.kind = .eof
  · rw [if_pos hk] at he
    cases he
  · rw [if_neg hk] at he
    have := bind_lt (fun _ _ => decl_lt) (fun _ => forward_pure _) he
    omega

end Parse
end FrontEnd
