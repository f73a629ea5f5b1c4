import FrontEnd.Lexer
import Mathlib.Data.List.TakeDrop
import Mathlib.Data.List.TakeWhile

/-!
# One token

What `Lexer.next` does to the text that is left: it passes a gap, then the runes of a
lexeme, and stands behind them.  The parts of a step have names here and the facts about
them are stated once, so that what follows speaks of gaps and lexemes and never unfolds
the step.
-/

namespace FrontEnd

theorem wordKind_cases (w : List Char) :
    (wordKind w = .letWord ∧ w = "let".toList) ∨ (wordKind w = .typeWord ∧ w = "type".toList) ∨
    (wordKind w = .sealWord ∧ w = "seal".toList) ∨ wordKind w = .ident := by
  unfold wordKind
  by_cases hl : w = "let".toList
  · rw [if_pos hl]
    exact Or.inl ⟨rfl, hl⟩
  · rw [if_neg hl]
    by_cases ht : w = "type".toList
    · rw [if_pos ht]
      exact Or.inr (Or.inl ⟨rfl, ht⟩)
    · rw [if_neg ht]
      by_cases hs : w = "seal".toList
      · rw [if_pos hs]
        exact Or.inr (Or.inr (Or.inl ⟨rfl, hs⟩))
      · rw [if_neg hs]
        exact Or.inr (Or.inr (Or.inr rfl))

theorem symbolKind_cases (w : List Char) :
    (symbolKind w = .arrow ∧ w = "->".toList) ∨ (symbolKind w = .assign ∧ w = "=".toList) ∨
    (symbolKind w = .colon ∧ w = ":".toList) ∨ symbolKind w = .symbol := by
  unfold symbolKind
  by_cases ha : w = "->".toList
  · rw [if_pos ha]
    exact Or.inl ⟨rfl, ha⟩
  · rw [if_neg ha]
    by_cases he : w = "=".toList
    · rw [if_pos he]
      exact Or.inr (Or.inl ⟨rfl, he⟩)
    · rw [if_neg he]
      by_cases hc : w = ":".toList
      · rw [if_pos hc]
        exact Or.inr (Or.inr (Or.inl ⟨rfl, hc⟩))
      · rw [if_neg hc]
        exact Or.inr (Or.inr (Or.inr rfl))

theorem Numeral.kind_cases (n : Numeral) :
    n.kind = .complex ∨ n.kind = .integer ∨ n.kind = .float := by
  unfold Numeral.kind
  by_cases hi : n.imaginary = true
  · rw [if_pos hi]
    exact Or.inl rfl
  · rw [if_neg hi]
    by_cases hn : n.isInteger = true
    · rw [if_pos hn]
      exact Or.inr (Or.inl rfl)
    · rw [if_neg hn]
      exact Or.inr (Or.inr rfl)

namespace Lexeme

theorem ident_append (c : Char) (cs : List Char) :
    (ident c cs).runes ++ cs.dropWhile continuesIdent = c :: cs := by
  show c :: (cs.takeWhile continuesIdent ++ cs.dropWhile continuesIdent) = c :: cs
  rw [List.takeWhile_append_dropWhile]

theorem symbol_append (c : Char) (cs : List Char) :
    (symbol c cs).runes ++ cs.dropWhile isSymbol = c :: cs := by
  show c :: (cs.takeWhile isSymbol ++ cs.dropWhile isSymbol) = c :: cs
  rw [List.takeWhile_append_dropWhile]

theorem number_append (cs : List Char) : (number cs).runes ++ (Numeral.read cs).2 = cs :=
  Numeral.read_text cs

theorem scan_cases {c : Char} (h : beginsToken c = true) (cs : List Char) :
    (beginsIdent c = true ∧ scan c cs = ident c cs) ∨
    (c.isDigit = true ∧ scan c cs = number (c :: cs)) ∨
    (∃ k, single? c = some k ∧ scan c cs = ⟨k, [c], none⟩) ∨
    (isSymbol c = true ∧ scan c cs = symbol c cs) := by
  unfold scan
  by_cases hi : beginsIdent c = true
  · rw [if_pos hi]
    exact Or.inl ⟨hi, rfl⟩
  · rw [if_neg hi]
    by_cases hd : c.isDigit = true
    · rw [if_pos hd]
      exact Or.inr (Or.inl ⟨hd, rfl⟩)
    · rw [if_neg hd]
      cases hs : single? c with
      | some k => exact Or.inr (Or.inr (Or.inl ⟨k, rfl, rfl⟩))
      | none =>
        have hsym : isSymbol c = true := by
          simp only [Bool.not_eq_true] at hi hd
          simpa [beginsToken, hi, hd, hs] using h
        exact Or.inr (Or.inr (Or.inr ⟨hsym, rfl⟩))

/-- A token is what its runes say at the front of the text, whatever follows. -/
theorem scan_isPrefix (c : Char) (cs : List Char) :
    ∃ rest, (scan c cs).runes ++ rest = c :: cs := by
  unfold scan
  by_cases hi : beginsIdent c = true
  · rw [if_pos hi]
    exact ⟨_, ident_append c cs⟩
  · rw [if_neg hi]
    by_cases hd : c.isDigit = true
    · rw [if_pos hd]
      exact ⟨_, number_append (c :: cs)⟩
    · rw [if_neg hd]
      cases single? c with
      | some k => exact ⟨cs, rfl⟩
      | none => exact ⟨_, symbol_append c cs⟩

theorem front_append (cs : List Char) :
    (front cs).runes ++ cs.drop (front cs).runes.length = cs := by
  cases cs with
  | nil => rfl
  | cons c cs =>
    obtain ⟨rest, h⟩ := scan_isPrefix c cs
    show (scan c cs).runes ++ (c :: cs).drop (scan c cs).runes.length = c :: cs
    rw [← h, List.drop_left]

/-- No kind of token that a text begins with is the end. -/
theorem scan_kind_ne_eof {c : Char} (h : beginsToken c = true) (cs : List Char) :
    (scan c cs).kind ≠ .eof := by
  rcases scan_cases h cs with ⟨-, hs⟩ | ⟨-, hs⟩ | ⟨k, hk, hs⟩ | ⟨-, hs⟩ <;> rw [hs]
  · show wordKind _ ≠ .eof
    rcases wordKind_cases (c :: cs.takeWhile continuesIdent) with ⟨h, -⟩ | ⟨h, -⟩ | ⟨h, -⟩ | h <;>
      simp [h]
  · show Numeral.kind _ ≠ .eof
    rcases Numeral.kind_cases (Numeral.read (c :: cs)).1 with h | h | h <;> simp [h]
  · show k ≠ .eof
    rintro rfl
    unfold single? at hk
    split at hk <;> cases hk
  · show symbolKind _ ≠ .eof
    rcases symbolKind_cases (c :: cs.takeWhile isSymbol) with ⟨h, -⟩ | ⟨h, -⟩ | ⟨h, -⟩ | h <;>
      simp [h]

end Lexeme

theorem beginsToken_of_inGap {keep : Bool} {c : Char} (h : inGap keep c = false) :
    beginsToken c = true := by
  simp only [inGap, isInvalid, Bool.or_eq_false_iff, Bool.and_eq_false_iff,
    Bool.not_eq_false'] at h
  rcases h.2 with hs | hb
  · rw [h.1.1] at hs
    cases hs
  · exact hb

namespace Lexer

variable (x : Lexer)

def gap : List Char :=
  x.rest.takeWhile (inGap x.current.keepsNewline)

def ahead : List Char :=
  x.rest.dropWhile (inGap x.current.keepsNewline)

def lexeme : Lexeme :=
  .front x.ahead

theorem gap_append_ahead : x.gap ++ x.ahead = x.rest :=
  List.takeWhile_append_dropWhile

theorem inGap_of_mem_gap {c : Char} (h : c ∈ x.gap) : inGap x.current.keepsNewline c = true :=
  List.mem_takeWhile_imp h

theorem token_next : x.next.current.token = x.lexeme.token := rfl

theorem toList_lexeme_next : x.next.current.token.lexeme.toList = x.lexeme.runes :=
  String.toList_ofList

theorem pos_current_next : x.next.current.pos = x.pos.afterAll x.gap := rfl

theorem pos_next : x.next.pos = x.next.current.pos.afterAll x.lexeme.runes := rfl

theorem depth_next : x.next.current.depth = depthAfter x.current.depth x.lexeme.kind := rfl

theorem passed_next : x.next.passed = x.passed + x.gap.length + x.lexeme.runes.length := rfl

def flaws : List (Nat × Diagnostic) :=
  x.lexeme.flaw.toList.map fun f =>
    (x.passed + x.gap.length + f.seen, ⟨x.next.current.pos.right f.offset, f.problem⟩)

theorem pending_next : x.next.pending = x.pending.dropWhile (·.1 ≤ x.next.passed) := by
  show (x.pending.span (·.1 ≤ x.next.passed)).2 = _
  rw [List.span_eq_takeWhile_dropWhile]

theorem reports_next : x.next.current.reports =
    ((x.pending.takeWhile (·.1 ≤ x.next.passed)).merge
      (gapReports x.passed x.pos x.gap ++ x.flaws) fun a b => a.1 ≤ b.1).map (·.2) := by
  show ((x.pending.span (·.1 ≤ x.next.passed)).1.merge
    (gapReports x.passed x.pos x.gap ++ x.flaws) fun a b => a.1 ≤ b.1).map (·.2) = _
  rw [List.span_eq_takeWhile_dropWhile]

theorem log_next : x.next.log = x.log ++ x.next.current.reports := rfl

theorem lexeme_append_rest : x.lexeme.runes ++ x.next.rest = x.ahead :=
  Lexeme.front_append x.ahead

theorem rest_eq : x.rest = x.gap ++ (x.lexeme.runes ++ x.next.rest) := by
  rw [lexeme_append_rest, gap_append_ahead]

theorem ahead_cases : x.ahead = [] ∨ ∃ c cs, x.ahead = c :: cs ∧ beginsToken c = true := by
  cases h : x.ahead with
  | nil => exact Or.inl rfl
  | cons c cs =>
    refine Or.inr ⟨c, cs, rfl, ?_⟩
    have hc := List.head?_dropWhile_not (inGap x.current.keepsNewline) x.rest
    have hd : x.rest.dropWhile (inGap x.current.keepsNewline) = c :: cs := h
    rw [hd] at hc
    exact beginsToken_of_inGap (by simpa using hc)

/-- The next token is the end exactly if nothing is left behind the gap. -/
theorem kind_next_eq_eof : x.next.current.token.kind = .eof ↔ x.ahead = [] := by
  rw [token_next]
  unfold lexeme
  rcases x.ahead_cases with h | ⟨c, cs, h, hc⟩
  · rw [h]
    exact ⟨fun _ => rfl, fun _ => rfl⟩
  · rw [h]
    exact ⟨fun he => absurd he (Lexeme.scan_kind_ne_eof hc cs), fun he => by cases he⟩

variable {x}

/-- In front of a token that is not the end stands a rune that begins it. -/
theorem exists_ahead (h : x.next.current.token.kind ≠ .eof) :
    ∃ c cs, x.ahead = c :: cs ∧ beginsToken c = true :=
  x.ahead_cases.resolve_left fun hn => h (x.kind_next_eq_eof.2 hn)

/-- A token that is not the end is scanned at the rune behind the gap. -/
theorem lexeme_eq_scan {c : Char} {cs : List Char} (h : x.ahead = c :: cs) :
    x.lexeme = .scan c cs := by
  rw [Lexer.lexeme, h]
  rfl

end Lexer

namespace Tokens

theorem ofLexer_end {x : Lexer} (h : x.next.current.token.kind = .eof) :
    (ofLexer x).entries = [] ∧ (ofLexer x).last = x.next.current := by
  rw [ofLexer, dif_pos h]
  exact ⟨rfl, rfl⟩

theorem ofLexer_more {x : Lexer} (h : x.next.current.token.kind ≠ .eof) :
    (ofLexer x).entries = x.next.current :: (ofLexer x.next).entries ∧
      (ofLexer x).last = (ofLexer x.next).last := by
  rw [ofLexer, dif_neg h]
  exact ⟨rfl, rfl⟩

/-- Every token before the end was scanned at a rune that begins one. -/
theorem exists_scan (x : Lexer) :
    ∀ e ∈ (ofLexer x).entries,
      ∃ c cs, beginsToken c = true ∧ e.token = (Lexeme.scan c cs).token := by
  fun_induction ofLexer x with
  | case1 x y he => intro e hm; exact absurd hm List.not_mem_nil
  | case2 x y he ts ih =>
    intro e hm
    rcases List.mem_cons.1 hm with rfl | hm
    · obtain ⟨c, cs, ha, hc⟩ := Lexer.exists_ahead he
      refine ⟨c, cs, hc, ?_⟩
      show x.next.current.token = _
      rw [x.token_next, Lexer.lexeme_eq_scan ha]
    · exact ih e hm

theorem kind_ne_eof (x : Lexer) : ∀ e ∈ (ofLexer x).entries, e.token.kind ≠ .eof := by
  intro e hm
  obtain ⟨c, cs, hc, he⟩ := exists_scan x e hm
  rw [he]
  exact Lexeme.scan_kind_ne_eof hc cs

end Tokens
end FrontEnd
