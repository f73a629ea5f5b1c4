import FrontEnd.Grammar.Equations
import FrontEnd.Proofs.Grammar.Derivation

/-!
# Passing tokens

A parser that stands past some tokens is determined by where it started and by their
number: besides moving on it only reports a literal whose value is too large, and every
literal token is read as one.  So `Passes s es t` says all there is to say about getting
from `s` to `t`, the diagnostics included, and the lemmas here state for each step of the
grammar what it passes.
-/

namespace FrontEnd

namespace Literal

/-- The report of a literal with too large a value. -/
def excess? {α : Type} (value : String → Except LiteralError α) (tooLarge : String → Problem)
    (lexeme : String) : Option Problem :=
  match value lexeme with
  | .error .overflow => some (tooLarge lexeme)
  | _ => none

end Literal

namespace Entry

/-- What the parser reports of a token that it takes. -/
def excess? (e : Entry) : Option Problem :=
  match e.token.kind with
  | .integer => Literal.excess? Literal.integerValue .integerOverflow e.token.lexeme
  | .float => Literal.excess? Literal.floatValue .floatOverflow e.token.lexeme
  | _ => none

def excesses (e : Entry) : List Diagnostic :=
  e.excess?.toList.map (Diagnostic.mk e.pos)

theorem excess?_integer {e : Entry} (h : e.Is .integer) : e.excess? =
    Literal.excess? Literal.integerValue .integerOverflow e.token.lexeme := by
  rw [excess?, show e.token.kind = .integer from h]

theorem excess?_float {e : Entry} (h : e.Is .float) : e.excess? =
    Literal.excess? Literal.floatValue .floatOverflow e.token.lexeme := by
  rw [excess?, show e.token.kind = .float from h]

end Entry

namespace TokenKind

def isPlain : TokenKind → Bool
  | integer | float | eof => false
  | _ => true

theorem ne_eof_of_isPlain {k : TokenKind} (h : k.isPlain = true) : k ≠ .eof := by
  intro hk
  rw [hk] at h
  cases h

end TokenKind

namespace Parser

def pass (p : Parser) : Parser :=
  match p.current.excess? with
  | some problem => p.advance.report ⟨p.current.pos, problem⟩
  | none => p.advance

def passBy : Nat → Parser → Parser
  | 0, p => p
  | n + 1, p => passBy n p.pass

theorem path_advance (p : Parser) : p.advance.path = p.path := by
  unfold advance
  split <;> rfl

theorem path_pass (p : Parser) : p.pass.path = p.path := by
  unfold pass
  split <;> exact path_advance p

theorem tokens_pass (p : Parser) : p.pass.tokens = p.advance.tokens := by
  unfold pass
  split <;> rfl

/-- The tokens that are left begin with the current one, but at the end. -/
theorem entries_eq {p : Parser} (h : p.current.token.kind ≠ .eof) :
    p.tokens.entries = p.current :: p.pass.tokens.entries := by
  rw [tokens_pass]
  unfold advance
  split
  · next hs =>
    refine absurd ?_ h
    simp only [current, Tokens.current, hs, List.headD_nil]
    exact p.tokens.last_eof
  · next hs => simp [current, Tokens.current, hs]

theorem pass_of_isPlain {p : Parser} (h : p.current.token.kind.isPlain = true) :
    p.pass = p.advance := by
  have hn : p.current.excess? = none := by
    unfold Entry.excess?
    split
    · next hk => rw [hk] at h; cases h
    · next hk => rw [hk] at h; cases h
    · rfl
  unfold pass
  rw [hn]

theorem passBy_add (m n : Nat) (p : Parser) : passBy (m + n) p = passBy n (passBy m p) := by
  induction m generalizing p with
  | zero => rw [Nat.zero_add]; rfl
  | succ m ih => rw [Nat.succ_add]; exact ih p.pass

theorem passBy_succ (n : Nat) (p : Parser) : p.passBy (n + 1) = (p.passBy n).pass :=
  passBy_add n 1 p

theorem tokens_passBy (n : Nat) (p : Parser) :
    (p.passBy n).tokens = { p.tokens with entries := p.tokens.entries.drop n } := by
  induction n generalizing p with
  | zero => rfl
  | succ n ih =>
    have hpass : p.pass.tokens = { p.tokens with entries := p.tokens.entries.tail } := by
      rw [tokens_pass]
      unfold advance
      split
      · next h => rw [h, List.tail_nil, ← h]
      · next h => rw [h, List.tail_cons]
    show (p.pass.passBy n).tokens = _
    rw [ih, hpass, List.drop_tail]

theorem path_passBy (n : Nat) (p : Parser) : (p.passBy n).path = p.path := by
  induction n generalizing p with
  | zero => rfl
  | succ n ih => exact (ih p.pass).trans p.path_pass

theorem left_passBy (n : Nat) (p : Parser) : (p.passBy n).left = p.left - n := by
  unfold left
  rw [tokens_passBy, List.length_drop]

end Parser

/-- From `s` to `t` over the tokens `es`. -/
structure Passes (s : Parser) (es : List Entry) (t : Parser) : Prop where
  entries : s.tokens.entries = es ++ t.tokens.entries
  reached : t = s.passBy es.length

namespace Passes

variable {s t u : Parser} {es fs : List Entry}

theorem refl (s : Parser) : Passes s [] s := ⟨rfl, rfl⟩

theorem one (h : s.current.token.kind ≠ .eof) : Passes s [s.current] s.pass :=
  ⟨Parser.entries_eq h, rfl⟩

theorem plain {k : TokenKind} (h : s.current.Is k) (hk : k.isPlain = true) :
    Passes s [s.current] s.advance := by
  rw [← h] at hk
  rw [← Parser.pass_of_isPlain hk]
  exact one (TokenKind.ne_eof_of_isPlain hk)

theorem trans (h : Passes s es t) (h' : Passes t fs u) : Passes s (es ++ fs) u := by
  refine ⟨?_, ?_⟩
  · rw [h.entries, h'.entries, List.append_assoc]
  · rw [h'.reached, h.reached, List.length_append, Parser.passBy_add]

theorem cons {e : Entry} (h : Passes s [e] t) (h' : Passes t fs u) : Passes s (e :: fs) u :=
  h.trans h'

theorem path (h : Passes s es t) : t.path = s.path := by
  rw [h.reached, Parser.path_passBy]

theorem last (h : Passes s es t) : t.tokens.last = s.tokens.last := by
  rw [h.reached, Parser.tokens_passBy]

theorem left (h : Passes s es t) : s.left = es.length + t.left := by
  unfold Parser.left
  rw [h.entries, List.length_append]

/-- A parser that has come to the end has passed all tokens. -/
theorem ended (h : Passes s es t) (hs : ∀ e ∈ s.tokens.entries, ¬ e.Is .eof)
    (ht : t.current.Is .eof) : s.tokens.entries = es ∧ t.current = s.tokens.last := by
  cases hts : t.tokens.entries with
  | nil =>
    refine ⟨by rw [h.entries, hts, List.append_nil], ?_⟩
    rw [← h.last]
    simp [Parser.current, Tokens.current, hts]
  | cons e rest =>
    have he : t.current = e := by simp [Parser.current, Tokens.current, hts]
    have hm : e ∈ s.tokens.entries := by
      rw [h.entries, hts]
      simp
    exact absurd (he ▸ ht) (hs e hm)

/-- Where a parser passes a token it stands on that token. -/
theorem current {e : Entry} (h : Passes s (e :: es) t) : s.current = e := by
  simp [Parser.current, Tokens.current, h.entries]

theorem current_ne_eof {e : Entry} (h : Passes s (e :: es) t) (he : ¬ e.Is .eof) :
    s.current.token.kind ≠ .eof := by
  rw [h.current]
  exact he

/-- A run of tokens is passed one part after the other. -/
theorem split (h : Passes s (es ++ fs) t) (hes : ∀ e ∈ es, ¬ e.Is .eof) :
    ∃ u, Passes s es u ∧ Passes u fs t := by
  induction es generalizing s with
  | nil => exact ⟨s, refl s, h⟩
  | cons e es ih =>
    have hs : s.current = e := h.current
    have he : s.current.token.kind ≠ .eof := h.current_ne_eof (hes e List.mem_cons_self)
    have hrest : Passes s.pass (es ++ fs) t := by
      refine ⟨?_, h.reached⟩
      have := h.entries
      rw [Parser.entries_eq he] at this
      exact (List.cons.inj this).2
    obtain ⟨u, hu, ht⟩ := ih hrest (fun f hf => hes f (List.mem_cons_of_mem _ hf))
    refine ⟨u, cons ?_ hu, ht⟩
    rw [← hs]
    exact one he

end Passes

namespace Parse

variable {α β : Type} {s t : Parser}

theorem map_ok {x : Parse α} {a : α} (f : α → β) (h : x s = .ok a t) :
    (x >>= fun a => pure (f a)) s = .ok (f a) t := by
  rw [bind_ok h]
  rfl

theorem advance_pass (hs : s.current.token.kind.isPlain = true) :
    advance s = .ok s.current.token s.pass := by
  rw [Parser.pass_of_isPlain hs]
  rfl

/-! ## Single tokens -/

/-- `x` takes a token with the property `K`, for what `value` makes of it, and fails at any
other. -/
structure Single (K : Token → Prop) (value : Token → Location → α) (what : Expectation)
    (x : Parse α) : Prop where
  takes : ∀ t, K t → t.kind ≠ .eof
  ok : ∀ s : Parser, K s.current.token → x s = .ok (value s.current.token s.here) s.pass
  error : ∀ s : Parser, ¬ K s.current.token →
    x s = .error (.expected what s.current.token s.here) s

namespace Single

variable {K : Token → Prop} {value : Token → Location → α} {what : Expectation} {x : Parse α}

theorem passes (hx : Single K value what x) {a : α} (h : x s = .ok a t) :
    ∃ e : Entry, K e.token ∧ a = value e.token (e.loc s.path) ∧ Passes s [e] t := by
  by_cases hs : K s.current.token
  · rw [hx.ok s hs] at h
    cases h
    exact ⟨s.current, hs, rfl, .one (hx.takes _ hs)⟩
  · rw [hx.error s hs] at h
    cases h

theorem reads (hx : Single K value what x) {e : Entry} (h : Passes s [e] t) (he : K e.token) :
    x s = .ok (value e.token (e.loc s.path)) t := by
  cases h.current
  cases h.reached
  exact hx.ok s he

end Single

theorem single_expect {k : TokenKind} (hk : k.isPlain = true) :
    Single (·.kind = k) (fun t _ => t) (.token k) (expect k) where
  takes t ht := ht ▸ TokenKind.ne_eof_of_isPlain hk
  ok s hs := by
    unfold expect
    rw [kind_bind, if_pos hs]
    exact advance_pass (hs ▸ hk)
  error s hs := by
    unfold expect
    rw [kind_bind, if_neg hs]
    rfl

theorem single_name : Single (·.kind = .ident) (fun t l => ⟨t.lexeme, l⟩) (.token .ident) name where
  takes t ht := by
    rw [ht]
    decide
  ok s hs := (here_bind _ s).trans (map_ok _ ((single_expect rfl).ok s hs))
  error s hs := (here_bind _ s).trans (bind_error ((single_expect rfl).error s hs))

theorem isPlain_of_isOperator {e : Entry} (h : e.IsOperator) : e.token.kind.isPlain = true := by
  rcases h with h | h <;> rw [h] <;> rfl

theorem atOperator_pos (hs : s.current.IsOperator) : atOperator s = .ok true s := by
  unfold atOperator
  rw [kind_bind]
  rcases hs with hs | hs <;> rw [hs] <;> rfl

theorem atOperator_neg (hs : ¬ s.current.IsOperator) : atOperator s = .ok false s := by
  unfold Entry.IsOperator Entry.Is at hs
  unfold atOperator
  rw [kind_bind]
  cases hk : s.current.token.kind <;> rw [hk] at hs <;> first | rfl | simp at hs

theorem single_operator : Single (fun t => t.kind = .symbol ∨ t.kind = .minus)
    (fun t l => ⟨t.lexeme, l⟩) .operator operator where
  takes t ht := by rcases ht with ht | ht <;> rw [ht] <;> decide
  ok s hs := by
    unfold operator
    rw [bind_ok (atOperator_pos hs)]
    show (here >>= fun l => advance >>= fun t => pure (Name.mk t.lexeme l)) s = _
    exact (here_bind _ s).trans (map_ok _ (advance_pass (isPlain_of_isOperator hs)))
  error s hs := by
    unfold operator
    rw [bind_ok (atOperator_neg hs)]
    rfl

theorem single_contextArrow :
    Single (· = ⟨.symbol, "=>"⟩) (fun _ _ => ()) .contextArrow contextArrow := by
  have happly : ∀ s : Parser, contextArrow s =
      (if (s.current.token.kind = .symbol && s.current.token.lexeme = "=>" : Bool) = true then
        (advance >>= fun _ => pure ())
      else fail .contextArrow) s := fun _ => rfl
  have hiff : ∀ t : Token, (t.kind = .symbol && t.lexeme = "=>" : Bool) = true ↔
      t = ⟨.symbol, "=>"⟩ := by
    rintro ⟨k, l⟩
    simp
  refine ⟨fun t ht => ?_, fun s hs => ?_, fun s hs => ?_⟩
  · rw [ht]
    decide
  · rw [happly, if_pos ((hiff _).2 hs)]
    exact map_ok _ (advance_pass (by rw [hs]; rfl))
  · rw [happly, if_neg fun h => hs ((hiff _).1 h)]
    rfl

theorem passes_expect {k : TokenKind} (hk : k.isPlain = true) {a : Token}
    (h : expect k s = .ok a t) : ∃ e, e.Is k ∧ a = e.token ∧ Passes s [e] t :=
  (single_expect hk).passes h

theorem passes_name {n : Name} (h : name s = .ok n t) :
    ∃ e, e.Is .ident ∧ n = e.name s.path ∧ Passes s [e] t :=
  single_name.passes h

theorem passes_operator {n : Name} (h : operator s = .ok n t) :
    ∃ e, e.IsOperator ∧ n = e.name s.path ∧ Passes s [e] t :=
  single_operator.passes h

structure Optional (k : TokenKind) (value : Token → Location → α) (x : Parse (Option α)) :
    Prop where
  some : ∀ s : Parser, s.current.Is k → x s = .ok (some (value s.current.token s.here)) s.pass
  none : ∀ s : Parser, ¬ s.current.Is k → x s = .ok none s

theorem optional_separator : Optional .semi (fun t _ => t) separator? where
  some s hs := by
    unfold separator?
    rw [kind_bind, if_pos hs]
    exact map_ok _ (advance_pass (by rw [hs]; rfl))
  none s hs := by
    unfold separator?
    rw [kind_bind, if_neg hs]
    rfl

theorem optional_name : Optional .ident (fun t l => ⟨t.lexeme, l⟩) name? where
  some s hs := by
    unfold name?
    rw [kind_bind, if_pos hs]
    exact map_ok _ (single_name.ok s hs)
  none s hs := by
    unfold name?
    rw [kind_bind, if_neg hs]
    rfl

/-- What an optional token yields tells whether there was one. -/
theorem Optional.passes {k : TokenKind} {value : Token → Location → α} {x : Parse (Option α)}
    (hx : Optional k value x) (hk : k ≠ .eof) {o : Option α} (h : x s = .ok o t) :
    (∃ e : Entry, e.Is k ∧ o = Option.some (value e.token (e.loc s.path)) ∧ Passes s [e] t) ∨
      (¬ s.current.Is k ∧ o = Option.none ∧ t = s) := by
  by_cases hs : s.current.Is k
  · rw [hx.some s hs] at h
    cases h
    exact Or.inl ⟨s.current, hs, rfl, .one (by rw [hs]; exact hk)⟩
  · rw [hx.none s hs] at h
    cases h
    exact Or.inr ⟨hs, rfl, rfl⟩

/-! ## Choices -/

theorem operatorOr_operator (ofName : Name → Expr) {x : Parse Expr} (hs : s.current.IsOperator) :
    operatorOr ofName x s = .ok (ofName (s.current.name s.path)) s.pass := by
  unfold operatorOr
  rw [bind_ok (atOperator_pos hs)]
  exact map_ok ofName (single_operator.ok s hs)

theorem operatorOr_expr (ofName : Name → Expr) {x : Parse Expr} (hs : ¬ s.current.IsOperator) :
    operatorOr ofName x s = x s := by
  unfold operatorOr
  rw [bind_ok (atOperator_neg hs)]
  rfl

theorem arrowTail_stop (x : Parse Ty) (first : Ty) (loc : Location)
    (hs : s.current.token.kind ≠ .arrow) : arrowTail x first loc s = .ok first s := by
  unfold arrowTail
  rw [kind_bind, if_neg hs]
  rfl

theorem skip_pass {k : TokenKind} (hk : k.isPlain = true) (hs : s.current.Is k) :
    skip k s = .ok () s.pass := by
  unfold skip
  rw [kind_bind, if_pos hs]
  exact map_ok _ (advance_pass (hs ▸ hk))

theorem skip_stop {k : TokenKind} (hs : ¬ s.current.Is k) : skip k s = .ok () s := by
  unfold skip
  rw [kind_bind, if_neg hs]
  rfl

/-! ## Literals -/

/-- A literal is converted, and reported if its value is too large. -/
theorem literal_apply (value : String → Except LiteralError α) (tooLarge : String → Problem)
    (s : Parser) :
    literal value tooLarge s =
      .ok (s.current.converted value s.path)
        (match Literal.excess? value tooLarge s.current.token.lexeme with
          | some problem => s.advance.report ⟨s.current.pos, problem⟩
          | none => s.advance) := by
  unfold literal Literal.excess? Entry.converted
  rw [here_bind, advance_bind]
  cases value s.current.token.lexeme with
  | ok v => rfl
  | error e => cases e <;> rfl

theorem integer_apply (hs : s.current.Is .integer) :
    integer s = .ok (s.current.integer s.path) s.pass := by
  unfold integer Parser.pass
  rw [literal_apply, Entry.excess?_integer hs]
  rfl

theorem float_apply (hs : s.current.Is .float) :
    float s = .ok (s.current.float s.path) s.pass := by
  unfold float Parser.pass
  rw [literal_apply, Entry.excess?_float hs]
  rfl

theorem passes_integer (hs : s.current.Is .integer) {v : Converted Nat}
    (h : integer s = .ok v t) : v = s.current.integer s.path ∧ Passes s [s.current] t := by
  rw [integer_apply hs] at h
  cases h
  exact ⟨rfl, .one (by rw [hs]; decide)⟩

theorem passes_float (hs : s.current.Is .float) {v : Converted Double}
    (h : float s = .ok v t) : v = s.current.float s.path ∧ Passes s [s.current] t := by
  rw [float_apply hs] at h
  cases h
  exact ⟨rfl, .one (by rw [hs]; decide)⟩

end Parse
end FrontEnd
