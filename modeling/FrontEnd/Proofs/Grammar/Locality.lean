import FrontEnd.Proofs.Grammar.Completeness
import FrontEnd.Proofs.Grammar.Locations
import FrontEnd.Proofs.Tree.Relocate

/-!
# What a parse depends on

A parse depends on the tokens that it takes and on the one it stops at, and of that one,
if it succeeds, only on whether the kind goes on with what was read.  So it does the same
wherever those tokens stand: what it yields is moved with them, and so is its error.

`Local` says this of two parses at one place of the first, since a production may carry
along names and locations that were read before.  The lemmas go through the grammar once;
`local_decl?` is what files are made of.
-/

namespace FrontEnd

/-! ## Places that look alike -/

namespace Parser

structure Steps (s : Parser) (n : Nat) (t : Parser) : Prop where
  reached : t = s.passBy n
  left : t.left + n = s.left

/-- `s'` stands on the token that `s` stands on, moved by `f`. -/
structure Like (f : Location → Location) (s s' : Parser) : Prop where
  token : s'.current.token = s.current.token
  here : s'.here = f s.here

/-- The next `n` tokens of `s'` are those of `s`, moved by `f`. -/
def Mirrors (f : Location → Location) (n : Nat) (s s' : Parser) : Prop :=
  ∀ i < n, Like f (s.passBy i) (s'.passBy i)

variable {f : Location → Location} {m n : Nat} {s t u s' : Parser}

theorem Steps.refl (s : Parser) : s.Steps 0 s := ⟨rfl, rfl⟩

theorem Steps.trans (h : s.Steps m t) (h' : t.Steps n u) : s.Steps (m + n) u := by
  refine ⟨?_, ?_⟩
  · rw [h'.reached, h.reached, passBy_add]
  · have hst := h.left
    have htu := h'.left
    omega

theorem Steps.pass (h : s.current.token.kind ≠ .eof) : s.Steps 1 s.pass := by
  refine ⟨rfl, ?_⟩
  have he := congrArg List.length (entries_eq h)
  rw [List.length_cons] at he
  exact he.symm

theorem Like.kind (h : Like f s s') : s'.current.token.kind = s.current.token.kind :=
  congrArg Token.kind h.token

theorem Mirrors.mono (h : s.Mirrors f n s') (hm : m ≤ n) : s.Mirrors f m s' :=
  fun i hi => h i (Nat.lt_of_lt_of_le hi hm)

theorem Mirrors.first (h : s.Mirrors f (n + 1) s') : Like f s s' :=
  h 0 (Nat.zero_lt_succ n)

theorem Mirrors.shift (h : s.Mirrors f (m + n) s') :
    (s.passBy m).Mirrors f n (s'.passBy m) := by
  intro i hi
  rw [← passBy_add, ← passBy_add]
  exact h (m + i) (Nat.add_lt_add_left hi m)

end Parser

/-- The error, if it is about a token, is about the one that `t` stands on. -/
def SyntaxError.Blames (e : SyntaxError) (t : Parser) : Prop :=
  ∀ what found loc, e = .expected what found loc → found = t.current.token ∧ loc = t.here

namespace Parse

open FrontEnd.Parser

variable {α β γ : Type} {f : Location → Location} {P Q : TokenKind → Prop} {s : Parser}

/-- `x'` does wherever it finds the tokens of `s` what `x` does at `s`.  The token behind
them may be any of a kind in `P` if `x` succeeds. -/
structure Local (f : Location → Location) (P : TokenKind → Prop) (move : α → β)
    (x : Parse α) (x' : Parse β) (s : Parser) : Prop where
  ok : ∀ {a t}, x s = .ok a t → ∃ n, s.Steps n t ∧ ∀ s', s.Mirrors f n s' →
    t.Like f (s'.passBy n) ∨ P (s'.passBy n).current.token.kind →
    x' s' = .ok (move a) (s'.passBy n)
  error : ∀ {e t}, x s = .error e t → e.Blames t ∧ ∃ n, s.Steps n t ∧ ∀ s',
    s.Mirrors f (n + 1) s' → x' s' = .error (e.relocate f) (s'.passBy n)

/-- The token behind is of no consequence. -/
abbrev Any (_ : TokenKind) : Prop := True

/-- The token behind must be the same. -/
abbrev Same (_ : TokenKind) : Prop := False

namespace Local

variable {move : α → β} {x y : Parse α} {x' z : Parse β}

theorem weaken (h : Local f P move x x' s) (hP : ∀ k, Q k → P k) : Local f Q move x x' s := by
  refine ⟨fun e => ?_, h.error⟩
  obtain ⟨n, hn, hs⟩ := h.ok e
  exact ⟨n, hn, fun s' hm ht => hs s' hm (ht.imp_right (hP _))⟩

theorem pure (move : α → β) (a : α) : Local f P move (pure a) (pure (move a)) s := by
  refine ⟨fun e => ?_, nofun⟩
  cases e
  exact ⟨0, .refl s, fun s' _ _ => rfl⟩

theorem fail (what : Expectation) : Local f P move (Parse.fail what) (Parse.fail what) s := by
  refine ⟨nofun, fun e => ?_⟩
  cases e
  refine ⟨?_, 0, .refl s, fun s' hm => ?_⟩
  · rintro w t l ⟨⟩
    exact ⟨rfl, rfl⟩
  · have hl := hm.first
    show EStateM.Result.error (SyntaxError.expected what s'.current.token s'.here) s' = _
    rw [hl.token, hl.here]
    rfl

/-- Two steps one after the other.  What is behind the first one matters only if the
second takes nothing. -/
theorem bind {g : α → Parse γ} {δ : Type} {g' : β → Parse δ} {move' : γ → δ}
    (hx : Local f Q move x x' s)
    (hg : ∀ a t, x s = .ok a t → Local f P move' (g a) (g' (move a)) t)
    (hQ : ∀ a t, x s = .ok a t → (∀ k, P k → Q k) ∨ ∀ b u, g a t = .ok b u → u.left < t.left) :
    Local f P move' (x >>= g) (x' >>= g') s := by
  constructor
  · intro c u h
    obtain ⟨a, t, ht, hu⟩ := bind_eq_ok h
    obtain ⟨m, hm, hx⟩ := hx.ok ht
    obtain ⟨n, hn, hgs⟩ := (hg a t ht).ok hu
    refine ⟨m + n, hm.trans hn, fun s' hmir hend => ?_⟩
    rw [passBy_add] at hend ⊢
    have hfirst : t.Like f (s'.passBy m) ∨ Q (s'.passBy m).current.token.kind := by
      cases n with
      | zero =>
        have hut : u = t := hn.reached
        rcases hQ a t ht with hPQ | hlt
        · exact hut ▸ hend.imp_right (hPQ _)
        · have := hlt c u hu
          rw [hut] at this
          omega
      | succ n =>
        rw [hm.reached]
        exact Or.inl (hmir m (by omega))
    rw [bind_ok (hx s' (hmir.mono (by omega)) hfirst)]
    exact hgs _ (hm.reached ▸ hmir.shift) hend
  · intro e u h
    cases ht : x s with
    | error b t =>
      cases (bind_error ht).symm.trans h
      obtain ⟨hb, n, hn, hx⟩ := hx.error ht
      exact ⟨hb, n, hn, fun s' hmir => bind_error (hx s' hmir)⟩
    | ok a t =>
      rw [bind_ok ht] at h
      obtain ⟨m, hm, hx⟩ := hx.ok ht
      obtain ⟨hb, n, hn, hgs⟩ := (hg a t ht).error h
      refine ⟨hb, m + n, hm.trans hn, fun s' hmir => ?_⟩
      have hfirst : t.Like f (s'.passBy m) := by
        rw [hm.reached]
        exact hmir m (by omega)
      rw [bind_ok (hx s' (hmir.mono (by omega)) (Or.inl hfirst)), passBy_add]
      exact hgs _ (hm.reached ▸ Mirrors.shift (by rwa [Nat.add_assoc] at hmir))

/-- The second step takes a token whenever it succeeds. -/
theorem bind_takes {g : α → Parse γ} {δ : Type} {g' : β → Parse δ} {move' : γ → δ}
    (hx : Local f Q move x x' s)
    (hg : ∀ a t, x s = .ok a t → Local f P move' (g a) (g' (move a)) t)
    (hlt : ∀ a t b u, g a t = .ok b u → u.left < t.left) :
    Local f P move' (x >>= g) (x' >>= g') s :=
  hx.bind hg fun a t _ => Or.inr (hlt a t)

theorem free (h : Local f Any move x x' s) : Local f P move x x' s :=
  h.weaken fun _ _ => trivial

theorem strict (h : Local f P move x x' s) : Local f Same move x x' s :=
  h.weaken fun _ => False.elim

theorem bind_free {g : α → Parse γ} {δ : Type} {g' : β → Parse δ} {move' : γ → δ}
    (hx : Local f Any move x x' s)
    (hg : ∀ a t, x s = .ok a t → Local f P move' (g a) (g' (move a)) t) :
    Local f P move' (x >>= g) (x' >>= g') s :=
  hx.bind hg fun _ _ _ => Or.inl fun _ _ => trivial

theorem bind_any {g : α → Parse γ} {δ : Type} {g' : β → Parse δ} {move' : γ → δ}
    (hx : Local f P move x x' s)
    (hg : ∀ a t, x s = .ok a t → Local f P move' (g a) (g' (move a)) t) :
    Local f P move' (x >>= g) (x' >>= g') s :=
  hx.bind hg fun _ _ _ => Or.inl fun _ => id

theorem map {h : α → γ} {δ : Type} {h' : β → δ} {move' : γ → δ} (hx : Local f P move x x' s)
    (hh : ∀ a, move' (h a) = h' (move a)) :
    Local f P move' (x >>= fun a => Pure.pure (h a)) (x' >>= fun a => Pure.pure (h' a)) s :=
  hx.bind_any fun a _ _ => hh a ▸ pure move' (h a)

/-- What a parse that takes a token does is settled by that token. -/
theorem of_like (hx : x s = y s) (hx' : ∀ s', s.Like f s' → x' s' = z s')
    (hlt : ∀ a t, y s = .ok a t → t.left < s.left) (hy : Local f P move y z s) :
    Local f P move x x' s := by
  constructor
  · intro a t h
    rw [hx] at h
    obtain ⟨n, hn, hys⟩ := hy.ok h
    refine ⟨n, hn, fun s' hmir hend => ?_⟩
    have hpos : 0 < n := by
      have := hlt a t h
      have := hn.left
      omega
    rw [hx' s' (hmir 0 hpos)]
    exact hys s' hmir hend
  · intro e t h
    rw [hx] at h
    obtain ⟨hb, n, hn, hys⟩ := hy.error h
    exact ⟨hb, n, hn, fun s' hmir => (hx' s' hmir.first).trans (hys s' hmir)⟩

theorem of_kind {g : TokenKind → Parse α} {g' : TokenKind → Parse β}
    (h : Local f P move (g s.current.token.kind) (g' s.current.token.kind) s)
    (hlt : ∀ a t, g s.current.token.kind s = .ok a t → t.left < s.left) :
    Local f P move (kind >>= g) (kind >>= g') s := by
  refine of_like (kind_bind g s) (fun s' hl => ?_) hlt h
  rw [kind_bind, hl.kind]

theorem of_here {g : Location → Parse α} {g' : Location → Parse β}
    (h : Local f P move (g s.here) (g' (f s.here)) s)
    (hlt : ∀ a t, g s.here s = .ok a t → t.left < s.left) :
    Local f P move (here >>= g) (here >>= g') s := by
  refine of_like (here_bind g s) (fun s' hl => ?_) hlt h
  rw [here_bind, hl.here]

theorem stop {a : α} (hx : x s = .ok a s)
    (hx' : ∀ s' : Parser, s'.current.token.kind = s.current.token.kind ∨
      P s'.current.token.kind → x' s' = .ok (move a) s') : Local f P move x x' s := by
  constructor
  · intro b t h
    cases hx.symm.trans h
    exact ⟨0, .refl s, fun s' _ hend => hx' s' (hend.imp_left Like.kind)⟩
  · intro e t h
    cases hx.symm.trans h

end Local

theorem local_advance (hs : s.current.token.kind.isPlain = true) :
    Local f Any id advance advance s := by
  refine ⟨fun h => ?_, nofun⟩
  cases (advance_pass hs).symm.trans h
  refine ⟨1, .pass (TokenKind.ne_eof_of_isPlain hs), fun s' hmir _ => ?_⟩
  have hl := hmir.first
  rw [advance_pass (hl.kind ▸ hs), hl.token]
  rfl

section Tokens

variable {K : Token → Prop} {value : Token → Location → α} {what : Expectation} {x : Parse α}
  {move : α → α}

theorem Local.token (value : Token → Location → α) (hK : ∀ t, K t → t.kind ≠ .eof)
    (hx : ∀ s : Parser, K s.current.token → x s = .ok (value s.current.token s.here) s.pass)
    (hmove : ∀ t l, move (value t l) = value t (f l)) (hs : K s.current.token) :
    Local f Any move x x s := by
  refine ⟨fun h => ?_, fun h => ?_⟩ <;> cases (hx s hs).symm.trans h
  refine ⟨1, .pass (hK _ hs), fun s' hmir _ => ?_⟩
  have hl := hmir.first
  rw [hx s' (hl.token ▸ hs), hl.token, hl.here, hmove]
  rfl

theorem Local.single (hx : Single K value what x)
    (hmove : ∀ t l, move (value t l) = value t (f l)) : Local f Any move x x s := by
  by_cases hs : K s.current.token
  · exact .token value hx.takes hx.ok hmove hs
  · refine ⟨fun h => ?_, fun h => ?_⟩ <;> cases (hx.error s hs).symm.trans h
    refine ⟨?_, 0, .refl s, fun s' hmir => ?_⟩
    · rintro w t l ⟨⟩
      exact ⟨rfl, rfl⟩
    · have hl := hmir.first
      rw [hx.error s' (hl.token ▸ hs), hl.token, hl.here]
      rfl

theorem Local.optional {k : TokenKind} {x : Parse (Option α)} (hx : Optional k value x)
    (hk : k ≠ .eof) (hmove : ∀ t l, move (value t l) = value t (f l)) :
    Local f (· ≠ k) (Option.map move) x x s := by
  by_cases hs : s.current.Is k
  · refine .free (.token (K := (·.kind = k)) (fun t l => some (value t l)) ?_ hx.some ?_ hs)
    · rintro t rfl
      exact hk
    · exact fun t l => congrArg some (hmove t l)
  · refine .stop (hx.none s hs) fun s' hs' => hx.none s' ?_
    exact hs'.elim (fun h hk => hs (h.symm.trans hk)) id

end Tokens

theorem local_expect {k : TokenKind} (hk : k.isPlain = true) :
    Local f Any id (expect k) (expect k) s :=
  .single (single_expect hk) fun _ _ => rfl

theorem local_name : Local f Any (Name.relocate f) name name s :=
  .single single_name fun _ _ => rfl

theorem local_operator : Local f Any (Name.relocate f) operator operator s :=
  .single single_operator fun _ _ => rfl

theorem local_contextArrow : Local f Any id contextArrow contextArrow s :=
  .single single_contextArrow fun _ _ => rfl

theorem local_integer (hs : s.current.Is .integer) :
    Local f Any (fun v => (v.1, f v.2)) integer integer s :=
  .token (K := (·.kind = .integer)) (fun t l => ((Literal.integerValue t.lexeme).toOption, l))
    (fun _ h => by rw [h]; decide) (fun _ h => integer_apply h) (fun _ _ => rfl) hs

theorem local_float (hs : s.current.Is .float) :
    Local f Any (fun v => (v.1, f v.2)) float float s :=
  .token (K := (·.kind = .float)) (fun t l => ((Literal.floatValue t.lexeme).toOption, l))
    (fun _ h => by rw [h]; decide) (fun _ h => float_apply h) (fun _ _ => rfl) hs

theorem local_skip {k : TokenKind} (hk : k.isPlain = true) :
    Local f (· ≠ k) id (skip k) (skip k) s := by
  by_cases hs : s.current.Is k
  · refine .free (.token (K := (·.kind = k)) (fun _ _ => ()) ?_ (fun _ => skip_pass hk)
      (fun _ _ => rfl) hs)
    rintro t rfl
    exact TokenKind.ne_eof_of_isPlain hk
  · refine .stop (skip_stop hs) fun s' hs' => skip_stop ?_
    exact hs'.elim (fun h hk => hs (h.symm.trans hk)) id

/-- What stands in parentheses may be anything that ends at the closing one. -/
theorem local_parenthesized {x : Parse α} {x' : Parse β} {move : α → β}
    (hs : s.current.Is .parenLeft) (hx : Local f Same move x x' s.advance) :
    Local f Any move (parenthesized x) (parenthesized x') s := by
  have hplain : s.current.token.kind.isPlain = true := by rw [hs]; rfl
  refine (local_advance hplain).bind_any fun _ t ht => ?_
  cases ht
  refine hx.bind_takes (fun a u _ => (local_expect rfl).bind_any fun _ _ _ => .pure move a) ?_
  intro a t b u h
  exact bind_lt (fun _ _ => expect_lt (by decide)) (fun _ => forward_pure _) h

theorem local_many {item : Parse (Option α)} {item' : Parse (Option β)} {move : α → β}
    (ht : Takes item) (ht' : Takes item')
    (h : ∀ t, t.left ≤ s.left → Local f P (Option.map move) item item' t) :
    Local f P (List.map move) (many item) (many item') s := by
  generalize hn : s.left = n
  induction n using Nat.strongRecOn generalizing s with
  | ind n ih =>
    rw [many_eq ht, many_eq ht']
    refine (h s (Nat.le_refl _)).bind_any fun o t ho => ?_
    cases o with
    | none => exact .pure (List.map move) []
    | some a =>
      have hlt := ht s t a ho
      refine (ih t.left (hn ▸ hlt) (fun u hu => h u (by omega)) rfl).map fun as => rfl

/-- An item that is there if the first token begins one. -/
theorem Local.item {g : TokenKind → Parse (Option α)} {begins : TokenKind → Bool} {move : α → α}
    (ht : Takes (kind >>= g))
    (hnone : ∀ {t}, (kind >>= g) s = .ok none t → begins s.current.token.kind = false)
    (hstop : ∀ s : Parser, begins s.current.token.kind = false → (kind >>= g) s = .ok none s)
    (h : begins s.current.token.kind = true →
      Local f Any (Option.map move) (g s.current.token.kind) (g s.current.token.kind) s) :
    Local f (begins · = false) (Option.map move) (kind >>= g) (kind >>= g) s := by
  cases hb : begins s.current.token.kind with
  | true =>
    refine .of_kind (h hb).free fun a t he => ?_
    cases a with
    | some a => exact ht s t a he
    | none => cases hb.symm.trans (hnone he)
  | false =>
    refine .stop (hstop s hb) fun s' hs' => hstop s' ?_
    exact hs'.elim (fun hk => hk ▸ hb) id

/-! ## Expressions -/

def EndsExpr (k : TokenKind) : Prop :=
  k.beginsArgument = false

theorem application_eq (x : Parse Expr) :
    application x = here >>= fun loc => head x >>= fun fn => many (argument? x) >>= fun args =>
      pure (Call.applied fn args loc) := by
  unfold application
  congr 1
  funext loc
  congr 1
  funext fn
  congr 1
  funext args
  cases fn <;> cases args <;> rfl

section Expressions

variable {ofName : Name → Expr}

theorem expr_lt {t : Parser} {a : Expr} (h : expr s = .ok a t) : t.left < s.left := by
  obtain ⟨es, hp, hd⟩ := yields_expr s t a h
  obtain ⟨e, fs, rfl, -⟩ := hd.begins
  have hs := hp.left
  rw [List.length_cons] at hs
  omega

theorem local_operatorOr (hof : ∀ n, (ofName n).relocate f = ofName (n.relocate f))
    (hx : Local f EndsExpr (Expr.relocate f) expr expr s) :
    Local f EndsExpr (Expr.relocate f) (operatorOr ofName expr) (operatorOr ofName expr) s := by
  by_cases hs : s.current.IsOperator
  · exact .free (.token (fun t l => ofName ⟨t.lexeme, l⟩) single_operator.takes
      (fun _ => operatorOr_operator ofName) (fun t l => hof ⟨t.lexeme, l⟩) hs)
  · refine .of_like (operatorOr_expr ofName hs) (fun s' hl => operatorOr_expr ofName ?_)
      (fun _ _ => expr_lt) hx
    unfold Entry.IsOperator Entry.Is
    rw [hl.kind]
    exact hs

variable (hx : ∀ t, t.left < s.left → Local f EndsExpr (Expr.relocate f) expr expr t)

include hx

theorem local_head : Local f Any (Expr.relocate f) (head expr) (head expr) s := by
  refine .of_kind ?_ fun a t h => head_lt closed_forward.expr (s := s) h
  by_cases hk : s.current.token.kind = .parenLeft
  · have hlt := left_advance_lt (p := s) (by simp [hk])
    rw [if_pos hk]
    refine local_parenthesized hk (local_operatorOr (fun n => ?_) (hx _ hlt)).strict
    rw [Expr.relocate]
  · rw [if_neg hk]
    exact local_name.map fun n => by rw [Expr.relocate]

theorem local_argument? :
    Local f EndsExpr (Option.map (Expr.relocate f)) (argument? expr) (argument? expr) s := by
  refine .item (takes_argument? closed_forward.expr) (fun h => (argument?_none h).2)
    (fun _ => argument?_stop expr) fun hb => ?_
  cases hk : s.current.token.kind with
  | integer =>
    exact (local_integer hk).map fun v => congrArg some (Expr.relocate_ofInteger v)
  | float => exact (local_float hk).map fun v => congrArg some (Expr.relocate_ofFloat v)
  | ident =>
    refine local_name.map fun n => congrArg some ?_
    rw [Expr.relocate, Name.relocate_toCall]
  | parenLeft =>
    have hlt := left_advance_lt (p := s) (by simp [hk])
    refine (local_parenthesized hk
      (local_operatorOr (fun n => ?_) (hx _ hlt)).strict).map fun a => rfl
    rw [Expr.relocate, Name.relocate_toCall]
  | _ =>
    rw [hk] at hb
    cases hb

theorem local_application :
    Local f EndsExpr (Call.relocate f) (application expr) (application expr) s := by
  have hlt : ∀ a t, application expr s = .ok a t → t.left < s.left :=
    fun _ _ => application_lt closed_forward.expr
  rw [application_eq] at hlt ⊢
  refine .of_here ?_ hlt
  refine (local_head hx).bind_free fun fn t ht => ?_
  have htake := takes_argument? closed_forward.expr
  have hts := head_lt closed_forward.expr ht
  refine (local_many htake htake fun u hu => local_argument? fun v hv => hx v (by omega)).map ?_
  exact fun args => Call.relocate_applied fn args s.here

theorem local_exprLevel :
    Local f EndsExpr (Expr.relocate f) (exprLevel expr) (exprLevel expr) s := by
  have hlt : ∀ a t, exprLevel expr s = .ok a t → t.left < s.left := by
    rw [← expr_eq]
    exact fun _ _ => expr_lt
  refine .of_kind ?_ hlt
  cases hk : s.current.token.kind with
  | integer =>
    exact ((local_integer hk).map Expr.relocate_ofInteger).free
  | float => exact ((local_float hk).map Expr.relocate_ofFloat).free
  | ident | parenLeft =>
    exact (local_application hx).map fun c => by rw [Expr.relocate]
  | _ => exact .fail _

end Expressions

theorem local_expr : Local f EndsExpr (Expr.relocate f) expr expr s := by
  generalize hn : s.left = n
  induction n using Nat.strongRecOn generalizing s with
  | ind n ih =>
    rw [expr_eq]
    exact local_exprLevel fun t ht => ih t.left (hn ▸ ht) rfl

theorem local_pattern? :
    Local f EndsExpr (Option.map (Pattern.relocate f)) pattern? pattern? s := by
  refine .item takes_pattern? (fun h => (pattern?_none h).2) (fun _ => pattern?_stop)
    fun hb => ?_
  cases hk : s.current.token.kind with
  | integer =>
    exact (local_integer hk).map fun v => congrArg some (Pattern.relocate_ofInteger v)
  | float => exact (local_float hk).map fun v => congrArg some (Pattern.relocate_ofFloat v)
  | ident => exact local_name.map fun n => rfl
  | parenLeft =>
    refine (local_parenthesized hk ?_).map fun c => rfl
    exact (local_application fun _ _ => local_expr).strict
  | _ =>
    rw [hk] at hb
    cases hb

/-! ## Types -/

def EndsTypeArguments (k : TokenKind) : Prop :=
  k.beginsTypeArgument = false

def EndsType (k : TokenKind) : Prop :=
  EndsTypeArguments k ∧ k ≠ .arrow

theorem type_lt {t : Parser} {a : Ty} (h : type s = .ok a t) : t.left < s.left := by
  obtain ⟨es, hp, hd⟩ := yields_type s t a h
  obtain ⟨e, fs, rfl, -⟩ := hd.begins
  have hs := hp.left
  rw [List.length_cons] at hs
  omega

theorem local_fieldNames (inner : Ty) :
    Local f Any (List.map (Name.relocate f))
      (MonadExcept.ofExcept inner.fieldNames : Parse (List Name))
      (MonadExcept.ofExcept (inner.relocate f).fieldNames) s := by
  rw [Ty.fieldNames_relocate]
  cases hn : inner.fieldNames with
  | ok ns => exact .pure _ ns
  | error e =>
    refine ⟨nofun, fun h => ?_⟩
    cases h
    obtain ⟨m, -, rfl⟩ := Ty.fieldNames_eq_error hn
    refine ⟨?_, 0, .refl s, fun s' _ => ?_⟩
    · rintro what found l ⟨⟩
    · rfl

/-- What follows a type in parentheses is a token at least. -/
theorem closing_lt {inner a : Ty} {loc : Location} {t : Parser}
    (h : (kind >>= fun k => if k = .colon then context type inner loc
      else expect .parenRight >>= fun _ => arrowTail type inner loc) s = .ok a t) :
    t.left < s.left := by
  rw [kind_bind] at h
  by_cases hc : s.current.token.kind = .colon
  · rw [if_pos hc] at h
    obtain ⟨ns, u, hu, he⟩ := bind_eq_ok h
    have hus := (forward_fieldNames inner).of_ok hu
    have hlt := bind_lt (fun _ _ => expect_lt (by decide)) (fun _ => forward_bind forward_type
      fun _ => forward_bind (closed_forward.expect _) fun _ =>
        forward_bind closed_forward.contextArrow fun _ => forward_bind forward_type
          fun _ => forward_pure _) he
    omega
  · rw [if_neg hc] at h
    exact bind_lt (fun _ _ => expect_lt (by decide))
      (fun _ => closed_forward.arrowTail forward_type _ _) h

section Types

variable (hx : ∀ t, t.left < s.left → Local f EndsType (Ty.relocate f) type type t)

include hx

theorem local_typeArgument? :
    Local f EndsTypeArguments (Option.map (Expr.relocate f)) (typeArgument? type)
      (typeArgument? type) s := by
  refine .item (takes_typeArgument? forward_type) (fun h => (typeArgument?_none h).2)
    (fun _ => typeArgument?_stop type) fun hb => ?_
  cases hk : s.current.token.kind with
  | ident =>
    refine local_name.map fun n => congrArg some ?_
    rw [Expr.relocate, Name.relocate_toCall]
  | parenLeft =>
    have hlt := left_advance_lt (p := s) (by simp [hk])
    refine (local_parenthesized hk ((hx _ hlt).strict)).map fun a => ?_
    exact congrArg some (Ty.relocate_toExpr a)
  | _ =>
    rw [hk] at hb
    cases hb

theorem local_typeApplication :
    Local f EndsTypeArguments (Call.relocate f) (typeApplication type) (typeApplication type)
      s := by
  have hlt : ∀ a t, typeApplication type s = .ok a t → t.left < s.left := fun a t h =>
    bind_lt (fun _ _ => name_lt)
      (fun _ => forward_bind (closed_forward.many (closed_forward.typeArgument? forward_type))
        fun _ => forward_pure _) ((here_bind _ s).symm.trans h)
  refine .of_here ?_ hlt
  refine local_name.bind_free fun fn t ht => ?_
  have htake := takes_typeArgument? forward_type
  have hts := name_lt ht
  refine (local_many htake htake fun u hu =>
    local_typeArgument? fun v hv => hx v (by omega)).map fun args => ?_
  simp [Call.relocate, Expr.relocate, Expr.relocateAll_eq]

theorem local_context (inner : Ty) (loc : Location) :
    Local f EndsType (Ty.relocate f) (context type inner loc)
      (context type (inner.relocate f) (f loc)) s := by
  refine (local_fieldNames inner).bind_free fun ns t ht => ?_
  have hts := (forward_fieldNames inner).of_ok ht
  refine (local_expect rfl).bind_free fun _ u hu => ?_
  have hut := expect_lt (by decide) hu
  refine (hx u (by omega)).bind_takes (Q := EndsType) (fun shared v hv => ?_) ?_
  · have hvu := forward_type.of_ok hv
    refine (local_expect rfl).bind_free fun _ w hw => ?_
    have hwv := (closed_forward.expect _).of_ok hw
    refine local_contextArrow.bind_free fun _ z hz => ?_
    have hzw := closed_forward.contextArrow.of_ok hz
    exact (hx z (by omega)).map fun a => Ty.relocate_withContext a shared ns loc
  · intro shared v b w h
    exact bind_lt (fun _ _ => expect_lt (by decide)) (fun _ =>
      forward_bind closed_forward.contextArrow fun _ => forward_bind forward_type
        fun _ => forward_pure _) h

theorem local_arrowTail (first : Ty) (loc : Location) :
    Local f EndsType (Ty.relocate f) (arrowTail type first loc)
      (arrowTail type (first.relocate f) (f loc)) s := by
  by_cases hk : s.current.token.kind = .arrow
  · have hlt := left_advance_lt (p := s) (by simp [hk])
    refine .of_kind ?_ ?_
    · rw [if_pos hk, if_pos hk]
      refine (local_advance (by rw [hk]; rfl)).bind_free fun _ t ht => ?_
      cases ht
      refine (hx _ hlt).map fun a => ?_
      simp [Ty.relocate, FuncTy.relocate, Field.relocateAll, Ty.relocateAll]
    · intro a t h
      rw [if_pos hk, advance_bind] at h
      obtain ⟨b, u, hu, he⟩ := bind_eq_ok h
      cases he
      exact Nat.lt_of_le_of_lt (forward_type.of_ok hu) hlt
  · refine .stop (arrowTail_stop type first loc hk) fun s' hs' => arrowTail_stop type _ _ ?_
    exact hs'.elim (fun h => h ▸ hk) And.right

theorem local_typeLevel : Local f EndsType (Ty.relocate f) (typeLevel type) (typeLevel type) s := by
  have hlt : ∀ a t, typeLevel type s = .ok a t → t.left < s.left := by
    rw [← type_eq]
    exact fun _ _ => type_lt
  refine .of_here (.of_kind ?_ hlt) hlt
  cases hk : s.current.token.kind with
  | ident =>
    refine (local_typeApplication hx).bind (fun c t ht => ?_) fun _ _ _ => Or.inl fun _ => And.left
    have hts := (closed_forward.typeApplication forward_type).of_ok ht
    have htail := local_arrowTail (s := t) (fun u hu => hx u (by omega)) (.app c) s.here
    rwa [Ty.relocate] at htail
  | parenLeft =>
    refine (local_advance (by rw [hk]; rfl)).bind_free fun _ t ht => ?_
    cases ht
    have hadv := left_advance_lt (p := s) (by simp [hk])
    refine (hx _ hadv).bind_takes (fun inner t ht => ?_) fun _ _ _ _ => closing_lt
    have hts := forward_type.of_ok ht
    refine .of_kind ?_ fun _ _ h => closing_lt (s := t) h
    by_cases hc : t.current.token.kind = .colon
    · rw [if_pos hc, if_pos hc]
      exact local_context (fun u hu => hx u (by omega)) inner s.here
    · rw [if_neg hc, if_neg hc]
      refine (local_expect rfl).bind_free fun _ u hu => ?_
      have hut := (closed_forward.expect _).of_ok hu
      exact local_arrowTail (fun v hv => hx v (by omega)) inner s.here
  | _ => exact .fail _

end Types

theorem local_type : Local f EndsType (Ty.relocate f) type type s := by
  generalize hn : s.left = n
  induction n using Nat.strongRecOn generalizing s with
  | ind n ih =>
    rw [type_eq]
    exact local_typeLevel fun t ht => ih t.left (hn ▸ ht) rfl

/-! ## Declarations -/

theorem local_declName : Local f Any (Name.relocate f) declName declName s := by
  refine .of_kind ?_ fun a t h => declName_lt (s := s) h
  by_cases hk : s.current.token.kind = .parenLeft
  · rw [if_pos hk]
    exact local_parenthesized hk (local_operator.strict)
  · rw [if_neg hk]
    exact local_name

theorem signatureOf_lt {n : Name} {t : Parser} {g : Signature} (h : signatureOf n s = .ok g t) :
    t.left < s.left :=
  bind_lt (fun _ _ => expect_lt (by decide)) (fun _ => forward_bind forward_type
    fun _ => forward_pure _) h

theorem local_signatureOf (n : Name) :
    Local f EndsType (Signature.relocate f) (signatureOf n) (signatureOf (n.relocate f)) s :=
  (local_expect rfl).bind_free fun _ _ _ => local_type.map fun _ => rfl

theorem functionOf_lt {n : Name} {t : Parser} {g : Function} (h : functionOf n s = .ok g t) :
    t.left < s.left := by
  obtain ⟨ps, u, hu, h₁⟩ := bind_eq_ok h
  obtain ⟨_, v, hv, h₂⟩ := bind_eq_ok h₁
  have hus := (closed_forward.many closed_forward.pattern?).of_ok hu
  have hvu := (closed_forward.skip _).of_ok hv
  have htv := bind_lt (fun _ _ => expr_lt) (fun _ => forward_pure _) h₂
  omega

theorem local_functionOf (n : Name) :
    Local f EndsExpr (Function.relocate f) (functionOf n) (functionOf (n.relocate f)) s := by
  have hexpr : ∀ (ps : List Pattern) (t u : Parser) (g : Function),
      (expr >>= fun x => pure (Function.mk n none ps (some x) n.loc)) t = .ok g u →
        u.left < t.left :=
    fun _ _ _ _ h => bind_lt (fun _ _ => expr_lt) (fun _ => forward_pure _) h
  have hmany := local_many (f := f) takes_pattern? takes_pattern?
    fun t (_ : t.left ≤ s.left) => local_pattern?
  refine hmany.bind_takes (fun ps t _ => ?_) ?_
  · refine (local_skip rfl).bind_takes (fun _ u _ => ?_) fun _ t g u h => hexpr ps t u g h
    exact local_expr.map fun x => rfl
  · intro ps t g u h
    obtain ⟨_, v, hv, he⟩ := bind_eq_ok h
    exact Nat.lt_of_lt_of_le (hexpr ps v u g he) ((closed_forward.skip _).of_ok hv)

theorem local_separator? :
    Local f (· ≠ .semi) (Option.map id) separator? separator? s :=
  .optional optional_separator (by decide) fun _ _ => rfl

theorem local_skipSeparators : Local f (· ≠ .semi) id skipSeparators skipSeparators s :=
  (local_many takes_separator? takes_separator? fun _ _ => local_separator?).map fun _ => rfl

theorem local_name? : Local f (· ≠ .ident) (Option.map (Name.relocate f)) name? name? s :=
  .optional optional_name (by decide) fun _ _ => rfl

/-- Behind separators in a block a token is taken, if only the closing brace. -/
theorem memberTail_lt {t : Parser} {o : Option Signature}
    (h : (kind >>= fun k => if k = .braceRight then advance >>= fun _ => pure none
      else declName >>= fun n => signatureOf n >>= fun g => pure (some g)) s = .ok o t) :
    t.left < s.left := by
  rw [kind_bind] at h
  by_cases hk : s.current.token.kind = .braceRight
  · rw [if_pos hk] at h
    cases h
    exact left_advance_lt (by simp [hk])
  · rw [if_neg hk] at h
    exact bind_lt (fun _ _ => declName_lt) (fun _ =>
      forward_bind (closed_forward.signatureOf forward_type _) fun _ => forward_pure _) h

theorem member?_lt {t : Parser} {o : Option Signature} (h : member? s = .ok o t) :
    t.left < s.left := by
  obtain ⟨_, u, hu, he⟩ := bind_eq_ok h
  exact Nat.lt_of_lt_of_le (memberTail_lt he) (closed_forward.skipSeparators.of_ok hu)

/-- Behind the closing brace nothing matters, behind a member what ends its type. -/
theorem local_member? :
    Local f (fun k => (∃ t, member? s = .ok none t) ∨ EndsType k)
      (Option.map (Signature.relocate f)) member? member? s := by
  refine local_skipSeparators.bind (fun _ u hu => ?_) fun _ u _ => Or.inr fun _ _ => memberTail_lt
  refine .of_kind ?_ fun _ _ h => memberTail_lt (s := u) h
  by_cases hk : u.current.token.kind = .braceRight
  · rw [if_pos hk]
    refine .free ?_
    exact (local_advance (by rw [hk]; rfl)).map fun _ => rfl
  · have hnone : ∀ t, member? s ≠ .ok none t := by
      intro t h
      unfold member? at h
      rw [bind_ok hu, kind_bind, if_neg hk] at h
      obtain ⟨n, v, -, hn⟩ := bind_eq_ok h
      obtain ⟨g, w, -, hg⟩ := bind_eq_ok hn
      cases hg
    rw [if_neg hk]
    refine Local.weaken (P := EndsType) ?_ fun k hP => hP.resolve_left fun ⟨t, ht⟩ => hnone t ht
    exact local_declName.bind_free fun n _ _ => (local_signatureOf n).map fun _ => rfl

theorem members_lt {t : Parser} {gs : List Signature} (h : many member? s = .ok gs t) :
    t.left < s.left := by
  rw [many_eq takes_member?] at h
  refine bind_lt (fun _ _ => member?_lt) (fun o => ?_) h
  cases o with
  | none => exact forward_pure _
  | some g =>
    have hmembers := closed_forward.many (closed_forward.member? forward_type)
    exact forward_bind hmembers fun _ => forward_pure _

theorem local_members :
    Local f Any (List.map (Signature.relocate f)) (many member?) (many member?) s := by
  generalize hn : s.left = n
  induction n using Nat.strongRecOn generalizing s with
  | ind n ih =>
    rw [many_eq takes_member?]
    refine local_member?.bind (fun o t ho => ?_) fun o t ho => ?_
    · cases o with
      | none => exact .pure (List.map (Signature.relocate f)) []
      | some g => exact (ih t.left (hn ▸ member?_lt ho) rfl).map fun gs => rfl
    · cases o with
      | none => exact Or.inl fun k _ => Or.inl ⟨t, ho⟩
      | some g =>
        exact Or.inr fun _ _ h => bind_lt (fun _ _ => members_lt) (fun _ => forward_pure _) h

theorem local_blockAt (loc : Location) :
    Local f Any (Block.relocate f) (blockAt loc) (blockAt (f loc)) s := by
  refine local_name.bind_free fun n t _ => ?_
  have hnames := local_many (f := f) takes_name? takes_name? fun u (_ : u.left ≤ t.left) =>
    local_name?
  refine hnames.bind_takes (fun ns u _ => ?_) ?_
  · exact (local_expect rfl).bind_free fun _ _ _ => local_members.map fun gs => rfl
  · intro ns u b v h
    exact bind_lt (fun _ _ => expect_lt (by decide)) (fun _ => forward_bind
      (closed_forward.many (closed_forward.member? forward_type)) fun _ => forward_pure _) h

theorem local_block (hs : s.current.token.kind.isPlain = true) :
    Local f Any (Block.relocate f) block block s := by
  have hne := TokenKind.ne_eof_of_isPlain hs
  refine .of_here ?_ fun _ _ h => block_lt (s := s) hne h
  exact (local_advance hs).bind_free fun _ _ _ => local_blockAt s.here

def EndsDecl (k : TokenKind) : Prop :=
  EndsExpr k ∧ k ≠ .arrow

theorem EndsDecl.endsType {k : TokenKind} (h : EndsDecl k) : EndsType k := by
  refine ⟨?_, h.2⟩
  obtain ⟨he, -⟩ := h
  unfold EndsExpr at he
  unfold EndsTypeArguments
  cases k <;> first | rfl | cases he

theorem declOf_lt {n : Name} {t : Parser} {d : Decl} (h : declOf n s = .ok d t) :
    t.left < s.left := by
  unfold declOf at h
  rw [kind_bind] at h
  cases hk : s.current.token.kind with
  | colon =>
    rw [hk] at h
    exact bind_lt (fun _ _ => signatureOf_lt) (fun _ => forward_pure _) h
  | ident | assign | parenLeft | integer | float =>
    rw [hk] at h
    exact bind_lt (fun _ _ => functionOf_lt) (fun _ => forward_pure _) h
  | _ =>
    rw [hk] at h
    cases h

theorem local_declOf (n : Name) :
    Local f EndsDecl (Decl.relocate f) (declOf n) (declOf (n.relocate f)) s := by
  refine .of_kind ?_ fun _ _ h => declOf_lt (s := s) h
  cases hk : s.current.token.kind with
  | colon =>
    refine Local.weaken ?_ fun _ => EndsDecl.endsType
    exact (local_signatureOf n).map fun _ => rfl
  | ident | assign | parenLeft | integer | float =>
    refine Local.weaken ?_ fun _ => And.left
    exact (local_functionOf n).map fun _ => rfl
  | _ => exact .fail (.declarationTail n.value)

theorem local_decl : Local f EndsDecl (Decl.relocate f) decl decl s := by
  refine .of_kind ?_ fun _ _ h => decl_lt (s := s) h
  cases hk : s.current.token.kind with
  | typeWord | sealWord =>
    refine .free ?_
    exact (local_block (by rw [hk]; rfl)).map fun _ => rfl
  | ident | parenLeft => exact local_declName.bind_free fun n _ _ => local_declOf n
  | _ => exact .fail _

theorem decl?_eq (s : Parser) : decl? s = (skipSeparators >>= fun _ => kind >>= fun k =>
    if k = .eof then pure none else decl >>= fun d => pure (some d)) s := rfl

/-- Behind a declaration only what ends it matters, but the end of a file is the end. -/
theorem local_decl? :
    Local f (fun k => (∃ d t, decl? s = .ok (some d) t) ∧ EndsDecl k)
      (Option.map (Decl.relocate f)) decl? decl? s := by
  have hend : ∀ u : Parser, u.current.token.kind = .eof →
      (kind >>= fun k => if k = .eof then pure none else decl >>= fun d => pure (some d)) u =
        .ok (none : Option Decl) u := by
    intro u hu
    rw [kind_bind, if_pos hu]
    rfl
  have hnone : ∀ {u : Parser}, skipSeparators s = .ok () u → u.current.token.kind = .eof →
      ¬ ∃ d t, decl? s = .ok (some d) t := by
    rintro u hu hk ⟨d, t, ht⟩
    rw [decl?_eq, bind_ok hu, hend u hk] at ht
    cases ht
  refine local_skipSeparators.bind (fun _ u hu => ?_) fun _ u hu => ?_
  · by_cases hk : u.current.token.kind = .eof
    · refine .stop (hend u hk) fun s' hs' => hend s' ?_
      exact hs'.elim (fun h => h.trans hk) fun h => absurd h.1 (hnone hu hk)
    · refine .of_kind ?_ fun o t h => ?_
      · rw [if_neg hk]
        exact (local_decl.weaken fun _ => And.right).map fun _ => rfl
      · rw [if_neg hk] at h
        exact bind_lt (fun _ _ => decl_lt) (fun _ => forward_pure _) h
  · by_cases hk : u.current.token.kind = .eof
    · exact Or.inl fun k h => absurd h.1 (hnone hu hk)
    · refine Or.inr fun o t h => ?_
      rw [kind_bind, if_neg hk] at h
      exact bind_lt (fun _ _ => decl_lt) (fun _ => forward_pure _) h

end Parse
end FrontEnd
