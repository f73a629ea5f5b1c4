import FrontEnd.Grammar.Closure

/-!
# Progress

No parse goes back, and every repeated or nested part of the grammar takes a token
before it comes round again.  So the tokens that are left are bound enough for `many` and
`nest`, and both satisfy the equations one would write for them without a bound:
`many_eq` for an item that takes a token whenever it yields something, and `nest_eq` for a
level that takes a token before what is nested in it.
-/

namespace FrontEnd

namespace Parser

def left (p : Parser) : Nat :=
  p.tokens.entries.length

theorem left_advance_le (p : Parser) : p.advance.left ≤ p.left := by
  unfold advance left
  split
  · exact Nat.le_refl _
  · next h => simp [h]

/-- Moving on takes a token unless the parser is at the end. -/
theorem left_advance_lt {p : Parser} (h : p.current.token.kind ≠ .eof) :
    p.advance.left < p.left := by
  unfold advance left
  split
  · next hs =>
    refine absurd ?_ h
    simp only [current, Tokens.current, hs, List.headD_nil]
    exact p.tokens.last_eof
  · next hs => simp [hs]

end Parser

namespace Parse

variable {α β : Type}

/-- The parser that `x` leaves, whether it succeeds or not. -/
def after (x : Parse α) (s : Parser) : Parser :=
  match x s with
  | .ok _ t => t
  | .error _ t => t

/-- `x` leaves no more tokens than it finds. -/
def Forward (x : Parse α) : Prop :=
  ∀ s, (x.after s).left ≤ s.left

theorem Forward.of_ok {x : Parse α} (h : Forward x) {s t : Parser} {a : α}
    (e : x s = .ok a t) : t.left ≤ s.left := by
  have := h s
  unfold after at this
  rwa [e] at this

theorem bind_ok {x : Parse α} {f : α → Parse β} {s t : Parser} {a : α} (e : x s = .ok a t) :
    (x >>= f) s = f a t := by
  show EStateM.bind x f s = f a t
  simp [EStateM.bind, e]

theorem bind_error {x : Parse α} {f : α → Parse β} {s t : Parser} {e : SyntaxError}
    (h : x s = .error e t) : (x >>= f) s = .error e t := by
  show EStateM.bind x f s = .error e t
  simp [EStateM.bind, h]

theorem bind_eq_ok {x : Parse α} {f : α → Parse β} {s t : Parser} {b : β}
    (e : (x >>= f) s = .ok b t) : ∃ a u, x s = .ok a u ∧ f a u = .ok b t := by
  cases h : x s with
  | ok a u => exact ⟨a, u, rfl, (bind_ok h).symm.trans e⟩
  | error a u => cases (bind_error h).symm.trans e

theorem kind_bind (f : TokenKind → Parse α) (s : Parser) :
    (kind >>= f) s = f s.current.token.kind s :=
  rfl

theorem here_bind (f : Location → Parse α) (s : Parser) : (here >>= f) s = f s.here s :=
  rfl

theorem advance_bind (f : Token → Parse α) (s : Parser) :
    (advance >>= f) s = f s.current.token s.advance :=
  rfl

/-- Two sequences agree at `s` if their first parts do and their second parts do where
the first parts lead. -/
theorem bind_congr_at {x y : Parse α} {f g : α → Parse β} {s : Parser} (h : x s = y s)
    (hf : ∀ a t, y s = .ok a t → f a t = g a t) : (x >>= f) s = (y >>= g) s := by
  cases e : y s with
  | ok a t => rw [bind_ok (h.trans e), bind_ok e, hf a t e]
  | error b t => rw [bind_error (h.trans e), bind_error e]

theorem forward_bind {x : Parse α} {f : α → Parse β} (hx : Forward x)
    (hf : ∀ a, Forward (f a)) : Forward (x >>= f) := by
  intro s
  have h := hx s
  unfold after at h ⊢
  cases e : x s with
  | ok a t =>
    rw [bind_ok e]
    rw [e] at h
    exact Nat.le_trans (hf a t) h
  | error b t =>
    rw [bind_error e]
    rwa [e] at h

theorem bind_lt {x : Parse α} {f : α → Parse β} {s t : Parser} {b : β}
    (hx : ∀ a u, x s = .ok a u → u.left < s.left) (hf : ∀ a, Forward (f a))
    (e : (x >>= f) s = .ok b t) : t.left < s.left := by
  obtain ⟨a, u, hu, he⟩ := bind_eq_ok e
  exact Nat.lt_of_le_of_lt ((hf a).of_ok he) (hx a u hu)

theorem forward_pure (a : α) : Forward (pure a : Parse α) :=
  fun _ => Nat.le_refl _

theorem forward_get : Forward (get : Parse Parser) :=
  fun _ => Nat.le_refl _

theorem forward_throw (e : SyntaxError) : Forward (throw e : Parse α) :=
  fun _ => Nat.le_refl _

theorem forward_advance : Forward advance :=
  fun s => s.left_advance_le

theorem forward_fail (what : Expectation) : Forward (fail what : Parse α) :=
  fun _ => Nat.le_refl _

theorem forward_report (loc : Location) (problem : Problem) : Forward (report loc problem) :=
  fun _ => Nat.le_refl _

theorem closed_forward : Closed @Forward where
  pure := forward_pure
  bind := forward_bind
  get := forward_get
  advance := forward_advance
  report := forward_report
  fail := forward_fail

/-- Taking a token that cannot be the end leaves fewer tokens. -/
theorem expect_lt {k : TokenKind} (hk : k ≠ .eof) {s t : Parser} {a : Token}
    (e : expect k s = .ok a t) : t.left < s.left := by
  unfold expect at e
  rw [kind_bind] at e
  by_cases hs : s.current.token.kind = k
  · rw [if_pos hs] at e
    cases e
    exact Parser.left_advance_lt (by rwa [hs])
  · rw [if_neg hs] at e
    cases e

/-- Every time `item` yields something it has taken a token. -/
def Takes (item : Parse (Option α)) : Prop :=
  ∀ s t a, item s = .ok (some a) t → t.left < s.left

/-- A bound that is large enough may be replaced by any other. -/
theorem manyAlong_congr {item : Parse (Option α)} (h : Takes item) {l l' : List Entry}
    {s : Parser} (hl : s.left ≤ l.length) (hl' : s.left ≤ l'.length) :
    manyAlong item l s = manyAlong item l' s := by
  induction l generalizing l' s with
  | nil =>
    cases l' with
    | nil => rfl
    | cons e l' =>
      refine bind_congr_at rfl fun a t ha => ?_
      cases a with
      | none => rfl
      | some a =>
        have := h s t a ha
        simp only [List.length_nil] at hl
        omega
  | cons e l ih =>
    cases l' with
    | nil =>
      refine bind_congr_at rfl fun a t ha => ?_
      cases a with
      | none => rfl
      | some a =>
        have := h s t a ha
        simp only [List.length_nil] at hl'
        omega
    | cons e' l' =>
      refine bind_congr_at rfl fun a t ha => ?_
      cases a with
      | none => rfl
      | some a =>
        have := h s t a ha
        simp only [List.length_cons] at hl hl'
        exact bind_congr_at (ih (by omega) (by omega)) fun _ _ _ => rfl

theorem many_apply (item : Parse (Option α)) (s : Parser) :
    many item s = manyAlong item s.tokens.entries s :=
  bind_ok (a := s) (t := s) rfl

theorem many_eq {item : Parse (Option α)} (h : Takes item) :
    many item = do
      match ← item with
      | some a => return a :: (← many item)
      | none => return [] := by
  funext s
  have hs : many item s = manyAlong item (s.current :: s.tokens.entries) s := by
    rw [many_apply]
    exact manyAlong_congr h (Nat.le_refl _) (Nat.le_succ _)
  rw [hs]
  refine bind_congr_at rfl fun a t ha => ?_
  cases a with
  | none => rfl
  | some a =>
    refine bind_congr_at ?_ fun _ _ _ => rfl
    rw [many_apply]
    exact manyAlong_congr h (Nat.le_of_lt (h s t a ha)) (Nat.le_refl _)

/-- Repetitions agree at `s` if their items agree from there on. -/
theorem many_congr_at {x y : Parse (Option α)} (hy : Forward y) {s : Parser}
    (h : ∀ t, t.left ≤ s.left → x t = y t) : many x s = many y s := by
  rw [many_apply, many_apply]
  have key : ∀ (l : List Entry) (t : Parser), t.left ≤ s.left →
      manyAlong x l t = manyAlong y l t := by
    intro l
    induction l with
    | nil =>
      intro t ht
      exact bind_congr_at (h t ht) fun _ _ _ => rfl
    | cons e l ih =>
      intro t ht
      refine bind_congr_at (h t ht) fun a u hu => ?_
      cases a with
      | none => rfl
      | some a =>
        have := hy.of_ok hu
        exact bind_congr_at (ih u (by omega)) fun _ _ _ => rfl
  exact key _ _ (Nat.le_refl _)

/-- `level` keeps going forward, and runs what is nested in it only after a token has
been taken. -/
structure Guarded (level : Parse α → Parse α) : Prop where
  forward : ∀ x, Forward x → Forward (level x)
  congr : ∀ x y s, Forward x → Forward y → (∀ t, t.left < s.left → x t = y t) →
    level x s = level y s

variable {level : Parse α → Parse α} {stuck : Expectation}

theorem forward_nestAlong (h : Guarded level) (l : List Entry) :
    Forward (nestAlong stuck level l) :=
  closed_forward.nestAlong h.forward l

theorem nestAlong_congr (h : Guarded level) {l l' : List Entry} {s : Parser}
    (hl : s.left ≤ l.length) (hl' : s.left ≤ l'.length) :
    nestAlong stuck level l s = nestAlong stuck level l' s := by
  induction l generalizing l' s with
  | nil =>
    have hs : s.left = 0 := Nat.le_zero.1 hl
    cases l' with
    | nil => rfl
    | cons e' l' =>
      exact h.congr _ _ s (forward_fail stuck) (forward_nestAlong h l') fun t ht => by omega
  | cons e l ih =>
    cases l' with
    | nil =>
      have hs : s.left = 0 := Nat.le_zero.1 hl'
      exact h.congr _ _ s (forward_nestAlong h l) (forward_fail stuck) fun t ht => by omega
    | cons e' l' =>
      simp only [List.length_cons] at hl hl'
      exact h.congr _ _ s (forward_nestAlong h l) (forward_nestAlong h l') fun t ht =>
        ih (by omega) (by omega)

theorem nest_apply (s : Parser) :
    nest stuck level s = nestAlong stuck level s.tokens.entries s :=
  bind_ok (a := s) (t := s) rfl

theorem forward_nest (h : Guarded level) : Forward (nest stuck level) :=
  closed_forward.nest h.forward

theorem nest_eq (h : Guarded level) : nest stuck level = level (nest stuck level) := by
  funext s
  have hs : nest stuck level s = nestAlong stuck level (s.current :: s.tokens.entries) s := by
    rw [nest_apply]
    exact nestAlong_congr h (Nat.le_refl _) (Nat.le_succ _)
  rw [hs]
  refine h.congr _ _ s (forward_nestAlong h _) (forward_nest h) fun t ht => ?_
  rw [nest_apply]
  exact nestAlong_congr h (Nat.le_of_lt ht) (Nat.le_refl _)

theorem name_lt {s t : Parser} {n : Name} (e : name s = .ok n t) : t.left < s.left :=
  bind_lt (fun _ _ => expect_lt (by decide)) (fun _ => forward_pure _)
    ((here_bind _ s).symm.trans e)

/-- Parentheses agree at `s` if what stands in them agrees after a token has been
taken. -/
theorem parenthesized_congr_at {x y : Parse α} {s : Parser} (hs : s.current.token.kind ≠ .eof)
    (h : ∀ t, t.left < s.left → x t = y t) : parenthesized x s = parenthesized y s :=
  bind_congr_at rfl fun _ t ht => by
    cases ht
    exact bind_congr_at (h _ (Parser.left_advance_lt hs)) fun _ _ _ => rfl

theorem parenthesized_lt {x : Parse α} (hx : Forward x) {s t : Parser} {a : α}
    (hs : s.current.token.kind ≠ .eof) (e : parenthesized x s = .ok a t) :
    t.left < s.left := by
  have hf : Forward (x >>= fun a => expect .parenRight >>= fun _ => pure a) :=
    forward_bind hx fun _ => forward_bind (closed_forward.expect _) fun _ => forward_pure _
  have h : parenthesized x s = (x >>= fun a => expect .parenRight >>= fun _ => pure a) s.advance :=
    rfl
  rw [h] at e
  exact Nat.lt_of_le_of_lt (hf.of_ok e) (Parser.left_advance_lt hs)

end Parse
end FrontEnd
