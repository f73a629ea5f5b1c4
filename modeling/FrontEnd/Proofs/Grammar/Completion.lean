import FrontEnd.Proofs.Grammar.Locality

/-!
# Completing what was read

Wherever a parse fails because it finds the wrong token, a few tokens in its place go on
with what has been read, and end it.  So the parser never takes a token that could not
have led to an accepted text, and an error is found where it first shows.

`Mends` says this of one parse at one place, and its lemmas go through the grammar once,
as those of `Local` do; `mends_decls` is what files are made of.  The tokens that are put
in are the `fillers`, one for each thing that the grammar may ask for.
-/

namespace FrontEnd

theorem TokenKind.ident_of_begins {k : TokenKind} (h : k.beginsTypeArgument = true)
    (hk : k ≠ .parenLeft) : k = .ident := by
  cases k <;> first | rfl | exact absurd rfl hk | cases h

namespace Parser

def Faces (s : Parser) (ts : List Token) : Prop :=
  ts <+: s.tokens.entries.map (·.token)

variable {s : Parser} {t : Token} {ts us : List Token}

theorem Faces.append (h : s.Faces (ts ++ us)) :
    s.Faces ts ∧ (s.passBy ts.length).Faces us := by
  obtain ⟨vs, hvs⟩ := h
  refine ⟨⟨us ++ vs, by rw [← hvs, List.append_assoc]⟩, vs, ?_⟩
  rw [tokens_passBy]
  show _ = (s.tokens.entries.drop _).map (·.token)
  rw [List.map_drop, ← hvs, List.append_assoc, List.drop_left]

theorem Faces.head (h : s.Faces (t :: ts)) : s.current.token = t ∧ s.pass.Faces ts := by
  have htail : (s.passBy [t].length).Faces ts := Faces.append h |>.2
  refine ⟨?_, htail⟩
  obtain ⟨vs, hvs⟩ := h
  unfold current Tokens.current
  cases hes : s.tokens.entries with
  | nil =>
    rw [hes] at hvs
    cases hvs
  | cons e es =>
    rw [hes] at hvs
    exact (List.cons.inj hvs).1.symm

end Parser

namespace Parse

open FrontEnd.Parser

variable {α β γ : Type} {F G P Q R : TokenKind → Prop} {s t : Parser} {ts us : List Token}

def fillers : List Token :=
  [⟨.ident, "x"⟩, ⟨.parenRight, ")"⟩, ⟨.braceLeft, "\x7b"⟩, ⟨.braceRight, "\x7d"⟩, ⟨.colon, ":"⟩,
    ⟨.assign, "="⟩, ⟨.symbol, "+"⟩, ⟨.symbol, "=>"⟩]

/-- Where `ts` stands, each of the parses `g` takes all of it, if what is behind is of a
kind in `P`; and what stands there is of a kind in `F`. -/
def Finishes (F P : TokenKind → Prop) (g : α → Parse β) (ts : List Token) : Prop :=
  ∀ s : Parser, s.Faces ts → P (s.passBy ts.length).current.token.kind →
    F s.current.token.kind ∧ ∀ a, ∃ b, g a s = .ok b (s.passBy ts.length)

/-- What `x` has read from `s` to `t` can be completed.  If it has read nothing, the
completion begins with a token of a kind in `F`; and what is behind the completion must be
of a kind in `P`. -/
def Mendable (F P : TokenKind → Prop) (x : Parse α) (s t : Parser) : Prop :=
  ∃ n ts, s.Steps n t ∧ ts ⊆ fillers ∧ ∀ s' : Parser, s.Mirrors id n s' →
    (s'.passBy n).Faces ts → P (s'.passBy (n + ts.length)).current.token.kind →
    (n = 0 → F s'.current.token.kind) ∧ ∃ a, x s' = .ok a (s'.passBy (n + ts.length))

/-- Where `x` fails at `s` because of a token, what it has read can be completed. -/
structure Mends (F P : TokenKind → Prop) (x : Parse α) (s : Parser) : Prop where
  mend : ∀ {what found loc t}, x s = .error (.expected what found loc) t → Mendable F P x s t

/-- A parse that moves nothing, said without the moving. -/
theorem Local.still {x : Parse α} {move : α → α} (h : Local id P move x x s)
    (hmove : ∀ a, move a = a) : Local id P id x x s := by
  have heq : move = id := funext hmove
  rwa [heq] at h

theorem Local.still_option {x : Parse (Option α)} {move : α → α}
    (h : Local id P (Option.map move) x x s) (hmove : ∀ a, move a = a) : Local id P id x x s :=
  h.still fun o => by
    cases o with
    | none => rfl
    | some a => exact congrArg some (hmove a)

theorem Local.still_list {x : Parse (List α)} {move : α → α}
    (h : Local id P (List.map move) x x s) (hmove : ∀ a, move a = a) : Local id P id x x s :=
  h.still (List.map_id'' hmove)

namespace Mends

variable {x y : Parse α}

theorem weaken (h : Mends F P x s) (hF : ∀ k, F k → G k) (hP : ∀ k, Q k → P k) :
    Mends G Q x s := by
  constructor
  intro what found loc t he
  obtain ⟨n, ts, hn, hts, hs⟩ := h.mend he
  refine ⟨n, ts, hn, hts, fun s' hm hf hq => ?_⟩
  obtain ⟨hF', hx⟩ := hs s' hm hf (hP _ hq)
  exact ⟨fun h0 => hF _ (hF' h0), hx⟩

theorem never {a : α} (h : x s = .ok a t) : Mends F P x s := by
  constructor
  intro what found loc u he
  cases h.symm.trans he

theorem fresh (hx : ∃ e, x s = .error e s) (ts : List Token) (hts : ts ⊆ fillers)
    (h : Finishes F P (fun _ : Unit => x) ts) : Mends F P x s := by
  constructor
  intro what found loc t he
  obtain ⟨e, hx⟩ := hx
  cases hx.symm.trans he
  refine ⟨0, ts, .refl s, hts, fun s' _ hf hp => ?_⟩
  rw [Nat.zero_add] at hp ⊢
  obtain ⟨hF, ha⟩ := h s' hf hp
  exact ⟨fun _ => hF, ha ()⟩

/-- What a parse does is settled by the first token, or by its kind where that is in `F`. -/
theorem of_like (hx : x s = y s)
    (hx' : ∀ s', s.Like id s' ∨ F s'.current.token.kind → x s' = y s') (h : Mends F P y s) :
    Mends F P x s := by
  constructor
  intro what found loc t he
  obtain ⟨n, ts, hn, hts, hs⟩ := h.mend (hx ▸ he)
  refine ⟨n, ts, hn, hts, fun s' hm hf hp => ?_⟩
  obtain ⟨hF, hy⟩ := hs s' hm hf hp
  refine ⟨hF, ?_⟩
  rw [hx' s' ?_]
  · exact hy
  · rcases Nat.eq_zero_or_pos n with h0 | hpos
    · exact Or.inr (hF h0)
    · exact Or.inl (hm 0 hpos)

theorem of_kind {g : TokenKind → Parse α} (h : Mends F P (g s.current.token.kind) s)
    (hF : ∀ k, F k → g k = g s.current.token.kind) : Mends F P (kind >>= g) s := by
  refine of_like (kind_bind g s) (fun s' hs' => ?_) h
  rw [kind_bind]
  rcases hs' with hl | hk
  · rw [hl.kind]
  · rw [hF _ hk]

theorem of_here {g : Location → Parse α} (h : Mends Same P (g s.here) s) :
    Mends Same P (here >>= g) s := by
  refine of_like (here_bind g s) (fun s' hs' => ?_) h
  rw [here_bind, (hs'.resolve_right id).here]
  rfl

/-- Two steps, where the first either is completed together with the second or succeeds as
it did. -/
theorem bind_core {g : α → Parse β}
    (hx : ∀ {what found loc t}, x s = .error (.expected what found loc) t →
      Mendable F P (x >>= g) s t)
    (hl : Local id Q id x x s) (hg : ∀ a t, x s = .ok a t → Mends G P (g a) t)
    (hQ : ∀ k, G k → Q k) (hF : (∀ k, G k → F k) ∨ ∀ a t, x s = .ok a t → t.left < s.left) :
    Mends F P (x >>= g) s := by
  constructor
  intro what found loc u he
  cases ht : x s with
  | error b t =>
    cases (bind_error ht).symm.trans he
    exact hx ht
  | ok a t =>
    rw [bind_ok ht] at he
    obtain ⟨m, hm, hx'⟩ := hl.ok ht
    obtain ⟨n, ts, hn, hts, hgs⟩ := (hg a t ht).mend he
    refine ⟨m + n, ts, hm.trans hn, hts, fun s' hmir hf hp => ?_⟩
    rw [passBy_add] at hf
    rw [Nat.add_assoc, passBy_add] at hp ⊢
    obtain ⟨hG, b, hb⟩ := hgs _ (hm.reached ▸ hmir.shift) hf hp
    have hfirst : t.Like id (s'.passBy m) ∨ Q (s'.passBy m).current.token.kind := by
      rcases Nat.eq_zero_or_pos n with h0 | hpos
      · exact Or.inr (hQ _ (hG h0))
      · rw [hm.reached]
        exact Or.inl (hmir m (by omega))
    refine ⟨fun h0 => ?_, b, ?_⟩
    · have hm0 : m = 0 := by omega
      rcases hF with hGF | hlt
      · rw [hm0] at hG
        exact hGF _ (hG (by omega))
      · have hlt' := hlt a t ht
        have hleft := hm.left
        omega
    · rw [bind_ok (hx' s' (hmir.mono (by omega)) hfirst)]
      exact hb

/-- Two steps, the second of which can be read off `ts` whatever the first yields. -/
theorem bind {g : α → Parse β} (hx : Mends F R x s) (ts : List Token) (hts : ts ⊆ fillers)
    (hfin : Finishes R P g ts) (hl : Local id Q id x x s)
    (hg : ∀ a t, x s = .ok a t → Mends G P (g a) t) (hQ : ∀ k, G k → Q k)
    (hF : (∀ k, G k → F k) ∨ ∀ a t, x s = .ok a t → t.left < s.left) :
    Mends F P (x >>= g) s := by
  refine bind_core (fun he => ?_) hl hg hQ hF
  obtain ⟨n, us, hn, hus, hs⟩ := hx.mend he
  refine ⟨n, us ++ ts, hn, List.append_subset.2 ⟨hus, hts⟩, fun s' hmir hf hp => ?_⟩
  obtain ⟨hf₁, hf₂⟩ := hf.append
  rw [← passBy_add] at hf₂
  rw [List.length_append, ← Nat.add_assoc, passBy_add] at hp ⊢
  obtain ⟨hR, hgs⟩ := hfin _ hf₂ hp
  obtain ⟨hF', a, ha⟩ := hs s' hmir hf₁ hR
  obtain ⟨b, hb⟩ := hgs a
  exact ⟨hF', b, (bind_ok ha).trans hb⟩

theorem bind_sure {g : α → Parse β}
    (hx : ∀ {what found loc t}, x s ≠ .error (.expected what found loc) t)
    (hl : Local id Q id x x s) (hg : ∀ a t, x s = .ok a t → Mends G P (g a) t)
    (hQ : ∀ k, G k → Q k) (hF : (∀ k, G k → F k) ∨ ∀ a t, x s = .ok a t → t.left < s.left) :
    Mends F P (x >>= g) s :=
  bind_core (fun he => absurd he hx) hl hg hQ hF

theorem map {h : α → β} (hx : Mends F P x s) : Mends F P (x >>= fun a => Pure.pure (h a)) s := by
  constructor
  intro what found loc t he
  cases ht : x s with
  | ok a u =>
    rw [bind_ok ht] at he
    cases he
  | error b u =>
    cases (bind_error ht).symm.trans he
    obtain ⟨n, ts, hn, hts, hs⟩ := hx.mend ht
    refine ⟨n, ts, hn, hts, fun s' hm hf hp => ?_⟩
    obtain ⟨hF, a, ha⟩ := hs s' hm hf hp
    exact ⟨hF, h a, map_ok h ha⟩

end Mends

namespace Finishes

theorem nil {g : α → Parse β} (hF : ∀ k, P k → F k)
    (h : ∀ a (s : Parser), P s.current.token.kind → ∃ b, g a s = .ok b s) : Finishes F P g [] :=
  fun s _ hp => ⟨hF _ hp, fun a => h a s hp⟩

theorem cons {f : Token} {x : α → Parse β} {g : α → β → Parse γ} (hF : F f.kind)
    (hx : ∀ a (s : Parser), s.current.token = f → ∃ b, x a s = .ok b s.pass)
    (hg : ∀ a, Finishes Any P (g a) ts) : Finishes F P (fun a => x a >>= g a) (f :: ts) := by
  intro s hs hp
  obtain ⟨hf, hts⟩ := hs.head
  refine ⟨hf ▸ hF, fun a => ?_⟩
  obtain ⟨b, hb⟩ := hx a s hf
  obtain ⟨c, hc⟩ := (hg a _ hts hp).2 b
  exact ⟨c, (bind_ok hb).trans hc⟩

theorem of_kind {f : Token} {g : α → TokenKind → Parse β}
    (h : Finishes F P (fun a => g a f.kind) (f :: ts)) :
    Finishes F P (fun a => Parse.kind >>= g a) (f :: ts) := by
  intro s hs hp
  obtain ⟨hF, hg⟩ := h s hs hp
  refine ⟨hF, fun a => ?_⟩
  show ∃ b, g a s.current.token.kind s = _
  rw [hs.head.1]
  exact hg a

theorem stay {f : Token} {x : α → Parse β} {g : α → β → Parse γ} (hF : F f.kind)
    (hx : ∀ a (s : Parser), s.current.token = f → ∃ b, x a s = .ok b s)
    (hg : ∀ a, Finishes Any P (g a) (f :: ts)) :
    Finishes F P (fun a => x a >>= g a) (f :: ts) := by
  intro s hs hp
  have hf := hs.head.1
  refine ⟨hf ▸ hF, fun a => ?_⟩
  obtain ⟨b, hb⟩ := hx a s hf
  obtain ⟨c, hc⟩ := (hg a s hs hp).2 b
  exact ⟨c, (bind_ok hb).trans hc⟩

theorem append {f : Token} {x : α → Parse β} {g : α → β → Parse γ} (hx : Finishes F R x ts)
    (hR : R f.kind) (hg : ∀ a, Finishes Any P (g a) (f :: us)) :
    Finishes F P (fun a => x a >>= g a) (ts ++ f :: us) := by
  intro s hs hp
  obtain ⟨hts, hus⟩ := hs.append
  rw [List.length_append, passBy_add] at hp ⊢
  obtain ⟨hF, hxs⟩ := hx s hts (hus.head.1 ▸ hR)
  refine ⟨hF, fun a => ?_⟩
  obtain ⟨b, hb⟩ := hxs a
  obtain ⟨c, hc⟩ := (hg a _ hus hp).2 b
  exact ⟨c, (bind_ok hb).trans hc⟩

theorem map {g : α → Parse β} {h : α → β → γ} (hg : Finishes F P g ts) :
    Finishes F P (fun a => g a >>= fun b => pure (h a b)) ts := by
  intro s hs hp
  obtain ⟨hF, hgs⟩ := hg s hs hp
  refine ⟨hF, fun a => ?_⟩
  obtain ⟨b, hb⟩ := hgs a
  exact ⟨h a b, map_ok (h a) hb⟩

theorem weaken {g : α → Parse β} (hg : Finishes F P g ts) (hP : ∀ k, Q k → P k) :
    Finishes F Q g ts :=
  fun s hs hq => hg s hs (hP _ hq)

theorem name {g : α → Parse β} (hF : F .ident)
    (h : ∀ a (s : Parser), s.current.Is .ident → P s.pass.current.token.kind →
      ∃ b, g a s = .ok b s.pass) : Finishes F P g [⟨.ident, "x"⟩] := by
  intro s hs hp
  have hf := hs.head.1
  exact ⟨hf ▸ hF, fun a => h a s (congrArg Token.kind hf) hp⟩

end Finishes

/-! ## Single tokens -/

theorem Finishes.single {K : Token → Prop} {value : Token → Location → β} {what : Expectation}
    {x : Parse β} {f : Token} {g : α → β → Parse γ} (hx : Single K value what x) (hf : K f)
    (hF : F f.kind) (hg : ∀ a, Finishes Any P (g a) ts) :
    Finishes F P (fun a => x >>= g a) (f :: ts) :=
  .cons hF (fun _ s hs => ⟨_, hx.ok s (hs ▸ hf)⟩) hg

/-- Where a token is missing, it is all that is missing. -/
theorem mends_single {K : Token → Prop} {value : Token → Location → α} {what : Expectation}
    {x : Parse α} (hx : Single K value what x) (f : Token) (hf : K f) (hmem : f ∈ fillers)
    (hF : F f.kind) : Mends F P x s := by
  by_cases hs : K s.current.token
  · exact .never (hx.ok s hs)
  · refine .fresh ⟨_, hx.error s hs⟩ [f] (List.cons_subset.2 ⟨hmem, List.nil_subset _⟩) ?_
    intro u hu _
    have hu' : u.current.token = f := hu.head.1
    exact ⟨hu' ▸ hF, fun _ => ⟨_, hx.ok u (hu' ▸ hf)⟩⟩

theorem mends_expect {k : TokenKind} (f : Token) (hk : k.isPlain = true) (hf : f.kind = k)
    (hmem : f ∈ fillers) : Mends (· = k) P (expect k) s :=
  mends_single (single_expect hk) f hf hmem hf

theorem mends_name : Mends Any P name s :=
  mends_single single_name ⟨.ident, "x"⟩ rfl (by decide) trivial

theorem mends_operator : Mends Any P operator s :=
  mends_single single_operator ⟨.symbol, "+"⟩ (Or.inl rfl) (by decide) trivial

theorem mends_contextArrow : Mends Any P contextArrow s :=
  mends_single single_contextArrow ⟨.symbol, "=>"⟩ rfl (by decide) trivial

/-- What stands in parentheses may be anything that ends at the closing one. -/
theorem mends_parenthesized {x : Parse α} (hs : s.current.Is .parenLeft)
    (hx : Mends F R x s.advance) (hR : R .parenRight) (hl : Local id Q id x x s.advance)
    (hQ : Q .parenRight) : Mends Same P (parenthesized x) s := by
  have hplain : s.current.token.kind.isPlain = true := by rw [hs]; rfl
  refine .bind_sure (G := Any) nofun (local_advance hplain) (fun _ t ht => ?_) (fun _ => id)
    (Or.inr ?_)
  · cases ht
    refine .bind (hx.weaken (fun _ _ => trivial) fun _ => id) [⟨.parenRight, ")"⟩]
      (by decide) ?_ hl (fun a u _ =>
        (mends_expect ⟨.parenRight, ")"⟩ rfl rfl (by decide)).map) ?_ (Or.inl ?_)
    · exact .single (single_expect rfl) rfl hR fun a =>
        .nil (fun _ _ => trivial) fun _ u _ => ⟨a, rfl⟩
    · rintro _ rfl
      exact hQ
    · exact fun _ _ => trivial
  · rintro a t ⟨⟩
    exact left_advance_lt (TokenKind.ne_eof_of_isPlain hplain)

theorem mends_many {item : Parse (Option α)} (ht : Takes item)
    (hx : ∀ t, t.left ≤ s.left → Mends Same Any item t)
    (hl : ∀ t, t.left ≤ s.left → Local id P id item item t)
    (hstop : ∀ t : Parser, P t.current.token.kind → item t = .ok none t) :
    Mends Same P (many item) s := by
  generalize hn : s.left = n
  induction n using Nat.strongRecOn generalizing s with
  | ind n ih =>
    rw [many_eq ht]
    refine .bind (G := Same) (hx s (Nat.le_refl _)) [] (List.nil_subset _) ?_
      (hl s (Nat.le_refl _)) (fun o t ho => ?_) (fun _ => False.elim) (Or.inl fun _ => id)
    · intro u _ hp
      refine ⟨trivial, fun o => ?_⟩
      cases o with
      | none => exact ⟨[], rfl⟩
      | some a => exact ⟨[a], map_ok _ (many_nil ht (hstop u hp))⟩
    · cases o with
      | none => exact .never rfl
      | some a =>
        have hlt := ht s t a ho
        exact (ih t.left (hn ▸ hlt) (fun u hu => hx u (by omega)) (fun u hu => hl u (by omega))
          rfl).map

/-! ## Expressions -/

theorem application_name (hs : s.current.Is .ident) (hend : EndsExpr s.pass.current.token.kind) :
    ∃ c, application expr s = .ok c s.pass := by
  refine ⟨_, (Derives.call (.headName hs) .noArguments).reads rfl
    (.one (by rw [hs]; decide)) ?_⟩
  unfold EndsExpr at hend
  simp [Phrase.endedBy, hend]

theorem expr_name (hs : s.current.Is .ident) (hend : EndsExpr s.pass.current.token.kind) :
    ∃ a, expr s = .ok a s.pass := by
  obtain ⟨c, hc⟩ := application_name hs hend
  refine ⟨.call c, ?_⟩
  rw [expr_eq]
  unfold exprLevel
  rw [kind_bind, hs]
  exact map_ok Expr.call hc

section Expressions

variable (hx : ∀ t, t.left < s.left → Mends (· = .ident) EndsExpr expr t)

theorem mends_operatorOr {ofName : Name → Expr} (hx : Mends (· = .ident) EndsExpr expr s) :
    Mends (· = .ident) EndsExpr (operatorOr ofName expr) s := by
  by_cases hs : s.current.IsOperator
  · exact .never (operatorOr_operator ofName hs)
  · refine .of_like (operatorOr_expr ofName hs) (fun s' hs' => operatorOr_expr ofName ?_) hx
    unfold Entry.IsOperator Entry.Is
    rcases hs' with hl | hk
    · rw [hl.kind]
      exact hs
    · simp [hk]

include hx

theorem mends_nested {ofName : Name → Expr} (hof : ∀ n, (ofName n).relocate id = ofName n)
    (hs : s.current.Is .parenLeft) :
    Mends Same P (parenthesized (operatorOr ofName expr)) s := by
  have hlt := left_advance_lt (p := s) (by rw [hs]; decide)
  refine mends_parenthesized hs (mends_operatorOr (hx _ hlt)) rfl
    ((local_operatorOr hof local_expr).still Expr.relocate_id) rfl

theorem mends_head (hs : s.current.token.kind.beginsTypeArgument = true) :
    Mends Same P (head expr) s := by
  refine .of_kind ?_ fun _ => False.elim
  by_cases hk : s.current.token.kind = .parenLeft
  · rw [if_pos hk]
    exact mends_nested hx (fun n => Expr.relocate_id _) hk
  · rw [if_neg hk]
    exact .never (map_ok Expr.name (single_name.ok s (TokenKind.ident_of_begins hs hk)))

theorem mends_argument? : Mends Same P (argument? expr) s := by
  refine .of_kind ?_ fun _ => False.elim
  cases hk : s.current.token.kind with
  | integer => exact .never (map_ok _ (integer_apply hk))
  | float => exact .never (map_ok _ (float_apply hk))
  | ident => exact .never (map_ok _ (single_name.ok s hk))
  | parenLeft => exact (mends_nested hx (fun n => Expr.relocate_id _) hk).map
  | _ => exact .never rfl

/-- Where an application begins, a completion does not begin it anew. -/
theorem mends_begun (hs : s.current.token.kind.beginsTypeArgument = true) :
    Mends Same EndsExpr (application expr) s := by
  rw [application_eq]
  refine .of_here ?_
  have htake := takes_argument? closed_forward.expr
  refine .bind (R := Any) (mends_head hx hs) [] (List.nil_subset _) ?_
    ((local_head fun _ _ => local_expr).still Expr.relocate_id) (fun fn t ht => ?_)
    (fun _ => False.elim) (Or.inl fun _ => id)
  · intro u _ hp
    exact ⟨trivial, fun fn => ⟨_, map_ok _ (many_nil htake (argument?_stop expr hp))⟩⟩
  · have hts := head_lt closed_forward.expr ht
    refine (mends_many htake (fun u hu => mends_argument? fun v hv => hx v (by omega))
      (fun u _ => ?_) fun u => argument?_stop expr).map
    exact (local_argument? fun _ _ => local_expr).still_option Expr.relocate_id

theorem mends_application : Mends Any EndsExpr (application expr) s := by
  by_cases hs : s.current.token.kind.beginsTypeArgument = true
  · exact (mends_begun hx hs).weaken (fun _ => False.elim) fun _ => id
  · have hfails : ∃ e, application expr s = .error e s := by
      have hk : ¬ s.current.token.kind = .parenLeft := fun hk => hs (by rw [hk]; rfl)
      have hi : ¬ s.current.Is .ident := fun hi => hs (by rw [hi]; rfl)
      refine ⟨.expected (.token .ident) s.current.token s.here, ?_⟩
      rw [application_eq, here_bind]
      refine bind_error ?_
      unfold head
      rw [kind_bind, if_neg hk]
      exact bind_error (single_name.error s hi)
    exact .fresh hfails _ (by decide) (.name trivial fun _ _ => application_name)

/-- Where an expression begins, a completion does not begin it anew. -/
theorem mends_exprLevel (hs : s.current.token.kind.beginsArgument = true) :
    Mends Same EndsExpr (exprLevel expr) s := by
  refine .of_kind ?_ fun _ => False.elim
  cases hk : s.current.token.kind with
  | integer => exact .never (map_ok _ (integer_apply hk))
  | float => exact .never (map_ok _ (float_apply hk))
  | ident | parenLeft => exact (mends_begun hx (by rw [hk]; rfl)).map
  | _ =>
    rw [hk] at hs
    cases hs

end Expressions

theorem expr_fails (hs : ¬ s.current.token.kind.beginsArgument = true) :
    ∃ e, expr s = .error e s := by
  refine ⟨.expected .expression s.current.token s.here, ?_⟩
  rw [expr_eq]
  unfold exprLevel
  rw [kind_bind]
  cases hk : s.current.token.kind <;> rw [hk] at hs <;> first | rfl | exact absurd rfl hs

theorem mends_expr : Mends (· = .ident) EndsExpr expr s := by
  generalize hn : s.left = n
  induction n using Nat.strongRecOn generalizing s with
  | ind n ih =>
    by_cases hs : s.current.token.kind.beginsArgument = true
    · rw [expr_eq]
      exact (mends_exprLevel (fun t ht => ih t.left (hn ▸ ht) rfl) hs).weaken
        (fun _ => False.elim) fun _ => id
    · exact .fresh (expr_fails hs) _ (by decide) (.name rfl fun _ _ => expr_name)

theorem mends_expr_begun (hs : s.current.token.kind.beginsArgument = true) :
    Mends Same EndsExpr expr s := by
  rw [expr_eq]
  exact mends_exprLevel (fun _ _ => mends_expr) hs

theorem mends_pattern? : Mends Same P pattern? s := by
  refine .of_kind ?_ fun _ => False.elim
  cases hk : s.current.token.kind with
  | integer => exact .never (map_ok _ (integer_apply hk))
  | float => exact .never (map_ok _ (float_apply hk))
  | ident => exact .never (map_ok _ (single_name.ok s hk))
  | parenLeft =>
    refine (mends_parenthesized hk (mends_application fun _ _ => mends_expr) rfl
      ((local_application fun _ _ => local_expr).still Call.relocate_id) rfl).map
  | _ => exact .never rfl

theorem still_pattern? : Local id EndsExpr id pattern? pattern? s :=
  local_pattern?.still_option Pattern.relocate_id

theorem still_patterns : Local id EndsExpr id (many pattern?) (many pattern?) s :=
  (local_many takes_pattern? takes_pattern? fun _ _ => local_pattern?).still_list
    Pattern.relocate_id

theorem mends_patterns : Mends Same EndsExpr (many pattern?) s :=
  mends_many takes_pattern? (fun _ _ => mends_pattern?) (fun _ _ => still_pattern?)
    fun _ => pattern?_stop

/-! ## Types -/

theorem type_name (hs : s.current.Is .ident) (hend : EndsType s.pass.current.token.kind) :
    ∃ a, type s = .ok a s.pass := by
  refine ⟨_, (Derives.typeAtom (.atomCall (.typeCall hs .noTypeArguments))).reads rfl
    (.one (by rw [hs]; decide)) ?_⟩
  obtain ⟨harg, harrow⟩ := hend
  unfold EndsTypeArguments at harg
  simp [Phrase.endedBy, harg, harrow]

theorem finishes_type (hF : F .ident) (h : α → Ty → β) :
    Finishes F EndsType (fun a => type >>= fun b => pure (h a b)) [⟨.ident, "x"⟩] := by
  refine .name hF fun a s hs hend => ?_
  obtain ⟨b, hb⟩ := type_name hs hend
  exact ⟨h a b, map_ok (h a) hb⟩

section Types

theorem still_type : Local id EndsType id type type s :=
  local_type.still Ty.relocate_id

variable (hx : ∀ t, t.left < s.left → Mends Any EndsType type t)

include hx

theorem mends_typeArgument? : Mends Same P (typeArgument? type) s := by
  refine .of_kind ?_ fun _ => False.elim
  cases hk : s.current.token.kind with
  | ident => exact .never (map_ok _ (single_name.ok s hk))
  | parenLeft =>
    have hlt := left_advance_lt (p := s) (by simp [hk])
    exact (mends_parenthesized hk (hx _ hlt) ⟨rfl, by decide⟩ still_type ⟨rfl, by decide⟩).map
  | _ => exact .never rfl

theorem mends_typeApplication (hs : s.current.Is .ident) :
    Mends Same EndsTypeArguments (typeApplication type) s := by
  have htake := takes_typeArgument? forward_type
  refine .of_here ?_
  refine .bind_sure (G := Same) (fun he => ?_) (local_name.still Name.relocate_id)
    (fun fn t ht => ?_) (fun _ => False.elim) (Or.inl fun _ => id)
  · cases (single_name.ok s hs).symm.trans he
  · have hts := name_lt ht
    refine (mends_many htake (fun u hu => mends_typeArgument? fun v hv => hx v (by omega))
      (fun u _ => ?_) fun u => typeArgument?_stop type).map
    exact (local_typeArgument? fun _ _ => local_type).still_option Expr.relocate_id

theorem mends_arrowTail (first : Ty) (loc : Location) :
    Mends Same EndsType (arrowTail type first loc) s := by
  refine .of_kind ?_ fun _ => False.elim
  by_cases hk : s.current.token.kind = .arrow
  · have hlt := left_advance_lt (p := s) (by simp [hk])
    rw [if_pos hk]
    refine .bind_sure nofun (local_advance (by rw [hk]; rfl)) (fun _ t ht => ?_) (fun _ => id)
      (Or.inr ?_)
    · cases ht
      exact (hx _ hlt).map
    · rintro a t ⟨⟩
      exact hlt
  · rw [if_neg hk]
    exact .never rfl

theorem mends_context (inner : Ty) (loc : Location) (hs : s.current.Is .colon) :
    Mends Same EndsType (context type inner loc) s := by
  unfold context
  cases hn : inner.fieldNames with
  | error e =>
    obtain ⟨m, -, rfl⟩ := Ty.fieldNames_eq_error hn
    exact ⟨nofun⟩
  | ok ns =>
    show Mends Same EndsType (expect .colon >>= fun _ => type >>= fun shared =>
      expect .parenRight >>= fun _ => contextArrow >>= fun _ => type >>= fun a =>
        pure (a.withContext ns shared loc)) s
    refine .bind_sure (G := Any) (fun he => ?_) (local_expect rfl) (fun _ u hu => ?_)
      (fun _ => id) (Or.inr fun _ _ => expect_lt (by decide))
    · cases ((single_expect rfl).ok s hs).symm.trans he
    have hus := expect_lt (by decide) hu
    have hresult : ∀ shared : Ty, Finishes Any EndsType
        (fun _ : Token => contextArrow >>= fun _ => type >>= fun a =>
          pure (a.withContext ns shared loc)) [⟨.symbol, "=>"⟩, ⟨.ident, "x"⟩] := fun _ =>
      .single single_contextArrow rfl trivial fun _ => finishes_type trivial _
    refine .bind (G := (· = .parenRight)) (hx u hus)
      [⟨.parenRight, ")"⟩, ⟨.symbol, "=>"⟩, ⟨.ident, "x"⟩] (by decide)
      (.single (single_expect rfl) rfl ⟨rfl, by decide⟩ hresult) still_type
      (fun shared v hv => ?_) ?_ (Or.inl fun _ _ => trivial)
    · have hvu := forward_type.of_ok hv
      refine .bind (R := Any) (G := Any) (mends_expect ⟨.parenRight, ")"⟩ rfl rfl (by decide))
        [⟨.symbol, "=>"⟩, ⟨.ident, "x"⟩] (by decide) (hresult shared)
        (local_expect rfl) (fun _ w hw => ?_) (fun _ => id)
        (Or.inr fun _ _ => expect_lt (by decide))
      have hwv := expect_lt (by decide) hw
      refine .bind (R := Any) (G := Any) mends_contextArrow [⟨.ident, "x"⟩] (by decide)
        (finishes_type trivial _) local_contextArrow (fun _ z hz => ?_) (fun _ => id)
        (Or.inl fun _ => id)
      have hzw := closed_forward.contextArrow.of_ok hz
      exact (hx z (by omega)).map
    · rintro _ rfl
      exact ⟨rfl, by decide⟩

theorem mends_closing (inner : Ty) (loc : Location) :
    Mends (· = .parenRight) EndsType (kind >>= fun k => if k = .colon then context type inner loc
      else expect .parenRight >>= fun _ => arrowTail type inner loc) s := by
  by_cases hk : s.current.token.kind = .colon
  · have h : Mends Same EndsType (kind >>= fun k => if k = .colon then context type inner loc
        else expect .parenRight >>= fun _ => arrowTail type inner loc) s := by
      refine .of_kind ?_ fun _ => False.elim
      rw [if_pos hk]
      exact mends_context hx inner loc hk
    exact h.weaken (fun _ => False.elim) fun _ => id
  · refine .of_kind ?_ ?_
    · rw [if_neg hk]
      refine .bind (R := Any) (G := Same)
        (mends_expect ⟨.parenRight, ")"⟩ rfl rfl (by decide)) [] (by decide) ?_
        (local_expect rfl) (fun _ t ht => ?_) (fun _ => False.elim) (Or.inl fun _ => False.elim)
      · exact .nil (fun _ _ => trivial) fun _ u hu => ⟨inner, arrowTail_stop type inner loc hu.2⟩
      · have hts := expect_lt (by decide) ht
        exact mends_arrowTail (fun u hu => hx u (by omega)) inner loc
    · rintro _ rfl
      rw [if_neg hk, if_neg (by decide)]

theorem mends_typeLevel (hs : s.current.token.kind.beginsTypeArgument = true) :
    Mends Same EndsType (typeLevel type) s := by
  refine .of_here (.of_kind ?_ fun _ => False.elim)
  cases hk : s.current.token.kind with
  | ident =>
    refine .bind (mends_typeApplication hx hk) (G := Same) [] (by decide) ?_
      ((local_typeApplication fun _ _ => local_type).still Call.relocate_id) (fun c t ht => ?_)
      (fun _ => False.elim) (Or.inl fun _ => id)
    · exact .nil (fun _ => And.left) fun c u hu => ⟨.app c, arrowTail_stop type _ _ hu.2⟩
    · have hts := (closed_forward.typeApplication forward_type).of_ok ht
      exact mends_arrowTail (fun u hu => hx u (by omega)) (.app c) s.here
  | parenLeft =>
    have hadv := left_advance_lt (p := s) (by simp [hk])
    refine .bind_sure (G := Any) nofun (local_advance (by rw [hk]; rfl)) (fun _ t ht => ?_)
      (fun _ => id) (Or.inr ?_)
    · cases ht
      refine .bind (hx _ hadv) [⟨.parenRight, ")"⟩] (by decide) ?_ still_type
        (fun inner u hu => mends_closing (fun v hv => ?_) inner s.here) ?_
        (Or.inl fun _ _ => trivial)
      · refine .of_kind ?_
        show Finishes _ _
          (fun inner => expect .parenRight >>= fun _ => arrowTail type inner s.here) _
        exact .single (single_expect rfl) rfl ⟨rfl, by decide⟩ fun inner =>
          .nil (fun _ _ => trivial) fun _ u hu => ⟨inner, arrowTail_stop type _ _ hu.2⟩
      · have hus := forward_type.of_ok hu
        exact hx v (by omega)
      · rintro _ rfl
        exact ⟨rfl, by decide⟩
    · rintro a t ⟨⟩
      exact hadv
  | _ =>
    rw [hk] at hs
    cases hs

end Types

theorem mends_type : Mends Any EndsType type s := by
  generalize hn : s.left = n
  induction n using Nat.strongRecOn generalizing s with
  | ind n ih =>
    by_cases hs : s.current.token.kind.beginsTypeArgument = true
    · rw [type_eq]
      exact (mends_typeLevel (fun t ht => ih t.left (hn ▸ ht) rfl) hs).weaken
        (fun _ => False.elim) fun _ => id
    · have hfails : ∃ e, type s = .error e s := by
        refine ⟨.expected .type s.current.token s.here, ?_⟩
        rw [type_eq]
        unfold typeLevel
        rw [here_bind, kind_bind]
        cases hk : s.current.token.kind <;> rw [hk] at hs <;> first | rfl | exact absurd rfl hs
      exact .fresh hfails _ (by decide) (.name trivial fun _ _ => type_name)

/-! ## Declarations -/

theorem mends_declName (hs : s.current.token.kind.beginsTypeArgument = true) :
    Mends Same P declName s := by
  refine .of_kind ?_ fun _ => False.elim
  by_cases hk : s.current.token.kind = .parenLeft
  · rw [if_pos hk]
    exact mends_parenthesized hk (R := Any) mends_operator trivial
      (local_operator.still Name.relocate_id) trivial
  · rw [if_neg hk]
    exact .never (single_name.ok s (TokenKind.ident_of_begins hs hk))

theorem declName_fails (hs : ¬ s.current.token.kind.beginsTypeArgument = true) :
    ∃ e, declName s = .error e s := by
  have hk : ¬ s.current.token.kind = .parenLeft := fun hk => hs (by rw [hk]; rfl)
  unfold declName
  rw [kind_bind, if_neg hk]
  exact ⟨_, single_name.error s fun hi : s.current.token.kind = .ident => hs (by rw [hi]; rfl)⟩

theorem mends_signatureOf (n : Name) : Mends (· = .colon) EndsType (signatureOf n) s :=
  .bind (R := Any) (G := Any) (mends_expect ⟨.colon, ":"⟩ rfl rfl (by decide))
    [⟨.ident, "x"⟩] (by decide) (finishes_type trivial _) (local_expect rfl)
    (fun _ _ _ => mends_type.map) (fun _ => id) (Or.inr fun _ _ => expect_lt (by decide))

theorem finishes_signatureOf (g : α → Name) (hF : F .colon) :
    Finishes F EndsType (fun a => signatureOf (g a)) [⟨.colon, ":"⟩, ⟨.ident, "x"⟩] :=
  .single (single_expect rfl) rfl hF fun _ => finishes_type trivial _

theorem finishes_body (hF : F .assign) (h : α → Expr → β) :
    Finishes F EndsExpr (fun a => skip .assign >>= fun _ => expr >>= fun x => pure (h a x))
      [⟨.assign, "="⟩, ⟨.ident, "x"⟩] := by
  refine .cons hF (fun _ s hs => ⟨(), skip_pass rfl (congrArg Token.kind hs)⟩) fun a => ?_
  refine .name trivial fun _ s hs hend => ?_
  obtain ⟨x, hx⟩ := expr_name hs hend
  exact ⟨h a x, map_ok (h a) hx⟩

/-- The equals sign in front of a body may be left out, but is not left out of a completion. -/
theorem mends_body (h : Expr → β) : Mends (· = .assign) EndsExpr
    (skip .assign >>= fun _ => expr >>= fun x => pure (h x)) s := by
  have hsure : ∀ {what found loc t}, skip .assign s ≠ .error (.expected what found loc) t := by
    intro what found loc t he
    by_cases hk : s.current.Is .assign
    · cases (skip_pass rfl hk).symm.trans he
    · cases (skip_stop hk).symm.trans he
  by_cases hk : s.current.Is .assign
  · refine .bind_sure hsure (local_skip rfl) (fun _ _ _ => mends_expr.map) ?_ (Or.inr ?_)
    · rintro _ rfl
      decide
    · intro a t ht
      cases (skip_pass rfl hk).symm.trans ht
      rw [pass_of_isPlain (by rw [hk]; rfl)]
      exact left_advance_lt (by rw [hk]; decide)
  by_cases hs : s.current.token.kind.beginsArgument = true
  · refine .bind_sure (G := Same) hsure (local_skip rfl) (fun _ t ht => ?_) (fun _ => False.elim)
      (Or.inl fun _ => False.elim)
    cases (skip_stop hk).symm.trans ht
    exact (mends_expr_begun hs).map
  · refine .fresh ?_ _ (by decide) (finishes_body (F := (· = .assign)) rfl fun _ => h)
    obtain ⟨e, he⟩ := expr_fails (s := s) hs
    exact ⟨e, (bind_ok (skip_stop hk)).trans (bind_error he)⟩

theorem mends_functionOf (n : Name) : Mends (· = .assign) EndsExpr (functionOf n) s := by
  refine .bind (mends_patterns.weaken (fun _ => False.elim) fun _ => id) _ (by decide)
    (finishes_body (F := EndsExpr) rfl _) still_patterns (fun ps t _ => mends_body _) ?_
    (Or.inl fun _ => id)
  rintro _ rfl
  rfl

theorem finishes_declOf : Finishes Any EndsDecl declOf [⟨.colon, ":"⟩, ⟨.ident, "x"⟩] :=
  .of_kind ((finishes_signatureOf id trivial).map.weaken fun _ => EndsDecl.endsType)

theorem mends_declOf (n : Name) : Mends Any EndsDecl (declOf n) s := by
  cases hk : s.current.token.kind with
  | colon =>
    refine Mends.weaken (F := (· = .colon)) ?_ (fun _ _ => trivial) fun _ => EndsDecl.endsType
    refine .of_kind ?_ ?_
    · rw [hk]
      exact (mends_signatureOf n).map
    · rintro _ rfl
      rw [hk]
  | ident | assign | parenLeft | integer | float =>
    refine Mends.weaken (F := (· = .assign)) ?_ (fun _ _ => trivial) fun _ => And.left
    refine .of_kind ?_ ?_
    · rw [hk]
      exact (mends_functionOf n).map
    · rintro _ rfl
      rw [hk]
  | _ =>
    have hfails : ∃ e, declOf n s = .error e s := by
      refine ⟨.expected (.declarationTail n.value) s.current.token s.here, ?_⟩
      unfold declOf
      rw [kind_bind, hk]
      rfl
    exact .fresh hfails _ (by decide) fun u hu hp =>
      ⟨trivial, fun _ => (finishes_declOf u hu hp).2 n⟩

theorem many_sure {item : Parse (Option α)} (ht : Takes item)
    (h : ∀ t : Parser, ∃ o u, item t = .ok o u) (s : Parser) : ∃ as t, many item s = .ok as t := by
  generalize hn : s.left = n
  induction n using Nat.strongRecOn generalizing s with
  | ind n ih =>
    obtain ⟨o, u, ho⟩ := h s
    cases o with
    | none => exact ⟨[], u, many_nil ht ho⟩
    | some a =>
      obtain ⟨as, t, has⟩ := ih u.left (hn ▸ ht s u a ho) u rfl
      exact ⟨a :: as, t, many_cons ht ho has⟩

theorem Optional.sure {k : TokenKind} {value : Token → Location → α} {x : Parse (Option α)}
    (hx : Optional k value x) (s : Parser) : ∃ o t, x s = .ok o t := by
  by_cases hk : s.current.Is k
  · exact ⟨_, _, hx.some s hk⟩
  · exact ⟨_, _, hx.none s hk⟩

theorem skipSeparators_sure (s : Parser) : ∃ t, skipSeparators s = .ok () t := by
  obtain ⟨as, t, h⟩ := many_sure takes_separator? optional_separator.sure s
  exact ⟨t, map_ok (fun _ => ()) h⟩

theorem mends_behind {k : TokenKind} {x : Parse α} (hk : k ≠ .semi)
    (hx : ∀ t, t.left ≤ s.left → Mends (· = k) P x t) :
    Mends (· = k) P (skipSeparators >>= fun _ => x) s := by
  obtain ⟨t, ht⟩ := skipSeparators_sure s
  refine .bind_sure (G := (· = k)) (fun he => ?_) (local_skipSeparators.still fun _ => rfl)
    (fun _ u hu => hx u (closed_forward.skipSeparators.of_ok hu)) ?_ (Or.inl fun _ => id)
  · cases ht.symm.trans he
  · rintro _ rfl
    exact hk

theorem still_names : Local id (· ≠ .ident) id (many name?) (many name?) s :=
  (local_many takes_name? takes_name? fun _ _ => local_name?).still_list Name.relocate_id

theorem members_eq : many member? = skipSeparators >>= fun _ => kind >>= fun k =>
    if k = .braceRight then advance >>= fun _ => pure []
    else declName >>= fun n => signatureOf n >>= fun g => many member? >>= fun gs =>
      pure (g :: gs) := by
  refine (many_eq takes_member?).trans ?_
  generalize many member? = ms
  unfold member?
  rw [bind_assoc]
  congr 1
  funext _
  rw [bind_assoc]
  congr 1
  funext k
  split <;> simp

theorem members_pass (hs : s.current.Is .braceRight) : many member? s = .ok [] s.pass := by
  have hpass : Passes s ([] ++ [s.current]) s.pass := .one (by rw [hs]; decide)
  exact many_nil takes_member? (member?_end hpass (List.forall_mem_nil _) hs)

theorem finishes_members (hF : F .braceRight) (h : α → List Signature → β) :
    Finishes F P (fun a => many member? >>= fun gs => pure (h a gs)) [⟨.braceRight, "\x7d"⟩] :=
  .cons hF (fun _ _ hs => ⟨[], members_pass (congrArg Token.kind hs)⟩) fun a =>
    .nil (fun _ _ => trivial) fun gs _ _ => ⟨h a gs, rfl⟩

theorem mends_member (hs : s.current.token.kind.beginsTypeArgument = true)
    (ih : ∀ t, t.left < s.left → Mends (· = .braceRight) P (many member?) t) :
    Mends Same P (declName >>= fun n => signatureOf n >>= fun g => many member? >>= fun gs =>
      pure (g :: gs)) s := by
  refine .bind (R := Any) (G := Any) (mends_declName hs)
    [⟨.colon, ":"⟩, ⟨.ident, "x"⟩, ⟨.braceRight, "\x7d"⟩] (by decide) ?_
    (local_declName.still Name.relocate_id) (fun n t ht => ?_) (fun _ => id)
    (Or.inr fun _ _ => declName_lt)
  · exact (finishes_signatureOf id trivial).append ⟨rfl, by decide⟩ fun _ =>
      finishes_members trivial _
  · have hts := declName_lt ht
    refine .bind (G := (· = .braceRight))
      ((mends_signatureOf n).weaken (fun _ _ => trivial) fun _ => id)
      [⟨.braceRight, "\x7d"⟩] (by decide) (finishes_members ⟨rfl, by decide⟩ _)
      ((local_signatureOf n).still Signature.relocate_id) (fun g u hu => ?_) ?_
      (Or.inl fun _ _ => trivial)
    · have hut := signatureOf_lt hu
      exact (ih u (by omega)).map
    · rintro _ rfl
      exact ⟨rfl, by decide⟩

/-- A block that breaks off where a member may begin is closed; one that breaks off within
a member is closed behind it. -/
theorem mends_members : Mends (· = .braceRight) P (many member?) s := by
  generalize hn : s.left = n
  induction n using Nat.strongRecOn generalizing s with
  | ind n ih =>
    rw [members_eq]
    refine mends_behind (by decide) fun t ht => ?_
    by_cases hk : t.current.token.kind = .braceRight
    · exact .never (t := t.advance) (by rw [kind_bind, if_pos hk]; rfl)
    by_cases hb : t.current.token.kind.beginsTypeArgument = true
    · refine Mends.weaken (F := Same) (.of_kind ?_ fun _ => False.elim) (fun _ => False.elim)
        fun _ => id
      rw [if_neg hk]
      exact mends_member hb fun u hu => ih u.left (by omega) rfl
    · refine .fresh ?_ [⟨.braceRight, "\x7d"⟩] (by decide) (.of_kind ?_)
      · obtain ⟨e, he⟩ := declName_fails hb
        refine ⟨e, ?_⟩
        rw [kind_bind, if_neg hk]
        exact bind_error he
      · show Finishes _ _ (fun _ => advance >>= fun _ => pure []) _
        exact .cons rfl (fun _ _ hs => ⟨_, advance_pass (by rw [hs]; rfl)⟩) fun _ =>
          .nil (fun _ _ => trivial) fun _ _ _ => ⟨[], rfl⟩

theorem mends_blockAt (loc : Location) : Mends Any P (blockAt loc) s := by
  refine .bind (R := Any) (G := Any) mends_name
    [⟨.braceLeft, "\x7b"⟩, ⟨.braceRight, "\x7d"⟩] (by decide) ?_
    (local_name.still Name.relocate_id) (fun n t _ => ?_) (fun _ => id) (Or.inl fun _ => id)
  · refine .stay trivial (fun _ u hu => ⟨[], ?_⟩) fun n => ?_
    · exact many_nil takes_name? (optional_name.none u (by rw [Entry.Is, hu]; decide))
    · exact .single (single_expect rfl) rfl trivial fun ns => finishes_members trivial _
  · obtain ⟨ns, u, hu⟩ := many_sure takes_name? optional_name.sure t
    refine .bind_sure (G := (· = .braceLeft)) (fun he => ?_) still_names (fun ns u _ => ?_) ?_
      (Or.inl fun _ _ => trivial)
    · cases hu.symm.trans he
    · exact .bind (R := Any) (mends_expect ⟨.braceLeft, "\x7b"⟩ rfl rfl (by decide))
        [⟨.braceRight, "\x7d"⟩] (by decide) (finishes_members trivial _)
        (local_expect rfl) (fun _ v _ => mends_members.map) (fun _ _ => trivial)
        (Or.inr fun _ _ => expect_lt (by decide))
    · rintro _ rfl
      decide

theorem mends_block (hs : s.current.token.kind.isPlain = true) : Mends Same P block s := by
  refine .of_here ?_
  refine .bind_sure (G := Any) nofun (local_advance hs) (fun _ t _ => mends_blockAt s.here)
    (fun _ => id) (Or.inr ?_)
  rintro a t ⟨⟩
  exact left_advance_lt (TokenKind.ne_eof_of_isPlain hs)

def BeginsDecl (k : TokenKind) : Prop :=
  k = .typeWord ∨ k = .sealWord ∨ k.beginsTypeArgument = true

theorem decl_fails (hs : ¬ BeginsDecl s.current.token.kind) : ∃ e, decl s = .error e s := by
  refine ⟨.expected .declaration s.current.token s.here, ?_⟩
  unfold BeginsDecl at hs
  unfold decl
  rw [kind_bind]
  cases hk : s.current.token.kind <;> rw [hk] at hs <;>
    first | rfl | exact absurd (by decide) hs

theorem mends_decl (hs : BeginsDecl s.current.token.kind) : Mends Same EndsDecl decl s := by
  refine .of_kind ?_ fun _ => False.elim
  cases hk : s.current.token.kind with
  | typeWord | sealWord => exact (mends_block (by rw [hk]; rfl)).map
  | ident | parenLeft =>
    exact .bind (R := Any) (mends_declName (by rw [hk]; rfl)) _ (by decide) finishes_declOf
      (local_declName.still Name.relocate_id) (fun n _ _ => mends_declOf n) (fun _ => id)
      (Or.inr fun _ _ => declName_lt)
  | _ =>
    rw [hk] at hs
    rcases hs with h | h | h <;> cases h

theorem endsDecl_eof : EndsDecl .eof :=
  ⟨rfl, by decide⟩

/-- The declarations of a file, the first one unrolled. -/
theorem decls_eq : many decl? = skipSeparators >>= fun _ => kind >>= fun k =>
    if k = .eof then pure [] else decl >>= fun d => many decl? >>= fun ds => pure (d :: ds) := by
  refine (many_eq takes_decl?).trans ?_
  generalize many decl? = ds
  unfold decl?
  rw [bind_assoc]
  congr 1
  funext _
  rw [bind_assoc]
  congr 1
  funext k
  split <;> simp

/-- A file that breaks off where a declaration may begin is complete; one that breaks off
within a declaration is complete behind it. -/
theorem mends_decls : Mends (· = .eof) (· = .eof) (many decl?) s := by
  generalize hn : s.left = n
  induction n using Nat.strongRecOn generalizing s with
  | ind n ih =>
    rw [decls_eq]
    refine mends_behind (by decide) fun t ht => ?_
    by_cases hk : t.current.token.kind = .eof
    · exact .never (t := t) (by rw [kind_bind, if_pos hk]; rfl)
    by_cases hb : BeginsDecl t.current.token.kind
    · refine Mends.weaken (F := Same) (.of_kind ?_ fun _ => False.elim) (fun _ => False.elim)
        fun _ => id
      rw [if_neg hk]
      refine .bind (G := (· = .eof)) (mends_decl hb) [] (by decide)
        (.nil ?_ fun d u hu => ⟨[d], map_ok _ (decls_end hu)⟩)
        (local_decl.still Decl.relocate_id) (fun d u hu => ?_) ?_ (Or.inr fun _ _ => decl_lt)
      · rintro _ rfl
        exact endsDecl_eof
      · have hut := decl_lt hu
        exact (ih u.left (by omega) rfl).map
      · rintro _ rfl
        exact endsDecl_eof
    · refine .fresh ?_ [] (by decide) (.nil (fun _ => id) fun _ u hu => ⟨[], ?_⟩)
      · obtain ⟨e, he⟩ := decl_fails hb
        refine ⟨e, ?_⟩
        rw [kind_bind, if_neg hk]
        exact bind_error he
      · rw [kind_bind, if_pos hu]
        rfl

end Parse
end FrontEnd
