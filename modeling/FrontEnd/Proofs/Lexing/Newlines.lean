import FrontEnd.Proofs.Lexing.Order
import FrontEnd.Proofs.Lexing.Sharing

/-!
# Newlines that separate

A newline is a token of its own if the token before it can end a construct and stands
outside parentheses, and if no other token is between the two.  The parentheses are
counted over all tokens that were taken, and one that closes none does not count.
-/

namespace FrontEnd

/-- The number of parentheses open behind some tokens, with `depth` of them open before.  One
that closes none does not count. -/
def depthBehind : Nat → List Entry → Nat
  | depth, [] => depth
  | depth, e :: es =>
    match e.token.kind with
    | .parenLeft => depthBehind (depth + 1) es
    | .parenRight => depthBehind (depth - 1) es
    | _ => depthBehind depth es

@[simp] theorem depthBehind_nil (depth : Nat) : depthBehind depth [] = depth := rfl

theorem depthBehind_cons (depth : Nat) (e : Entry) (es : List Entry) :
    depthBehind depth (e :: es) = depthBehind (depthAfter depth e.token.kind) es := by
  unfold depthAfter
  rw [depthBehind]
  cases e.token.kind <;> rfl

theorem depthBehind_append (depth : Nat) (es fs : List Entry) :
    depthBehind depth (es ++ fs) = depthBehind (depthBehind depth es) fs := by
  induction es generalizing depth with
  | nil => rfl
  | cons e es ih => rw [List.cons_append, depthBehind_cons, depthBehind_cons, ih]

def tally (k : TokenKind) (es : List Entry) : Nat :=
  es.countP (·.token.kind = k)

/-- What one token does to the depth and to the numbers of both kinds. -/
theorem tally_cases (depth : Nat) (e : Entry) (es : List Entry) :
    (depthAfter depth e.token.kind = depth + 1 ∧
      tally .parenLeft (e :: es) = tally .parenLeft es + 1 ∧
      tally .parenRight (e :: es) = tally .parenRight es) ∨
    (depthAfter depth e.token.kind = depth - 1 ∧
      tally .parenLeft (e :: es) = tally .parenLeft es ∧
      tally .parenRight (e :: es) = tally .parenRight es + 1) ∨
    (depthAfter depth e.token.kind = depth ∧
      tally .parenLeft (e :: es) = tally .parenLeft es ∧
      tally .parenRight (e :: es) = tally .parenRight es) := by
  unfold tally depthAfter
  simp only [List.countP_cons]
  cases e.token.kind <;> simp

/-- Whether more than `n` parentheses are open can be told from the numbers of both kinds, among
all of the tokens and among each run of tokens up to the last. -/
theorem depthBehind_le_iff {depth n : Nat} {es : List Entry} : depthBehind depth es ≤ n ↔
    depth + tally .parenLeft es ≤ tally .parenRight es + n ∧
      ∀ fs, fs <:+ es → tally .parenLeft fs ≤ tally .parenRight fs + n := by
  induction es generalizing depth with
  | nil => simp [tally]
  | cons e es ih =>
    have hstep := tally_cases depth e es
    rw [depthBehind_cons, ih]
    constructor
    · rintro ⟨hfirst, hall⟩
      have hes := hall es es.suffix_refl
      refine ⟨by omega, fun fs hfs => ?_⟩
      rcases List.suffix_cons_iff.1 hfs with rfl | hfs
      · omega
      · exact hall fs hfs
    · rintro ⟨hfirst, hall⟩
      have hes := hall es (es.suffix_cons e)
      have hall' := hall (e :: es) (List.suffix_refl _)
      exact ⟨by omega, fun fs hfs => hall fs (hfs.trans (es.suffix_cons e))⟩

/-- None is open exactly if no run of tokens up to the last opens more than it closes. -/
theorem depthBehind_eq_zero_iff {es : List Entry} : depthBehind 0 es = 0 ↔
    ∀ fs, fs <:+ es → tally .parenLeft fs ≤ tally .parenRight fs := by
  rw [← Nat.le_zero, depthBehind_le_iff]
  simp only [Nat.zero_add, Nat.add_zero, and_iff_right_iff_imp]
  exact fun h => h es es.suffix_refl

theorem TokenKind.endsLine_iff {k : TokenKind} : k.endsLine = true ↔
    k ∈ [ident, integer, float, complex, parenRight, braceRight] := by
  cases k <;> decide

def Token.newline : Token := ⟨.semi, "\n"⟩

namespace Lexeme

theorem scan_newline (cs : List Char) : scan '\n' cs = ⟨.semi, ['\n'], none⟩ := rfl

/-- A newline is never a part of a token. -/
theorem newline_of_mem {c : Char} {cs : List Char} (h : '\n' ∈ (scan c cs).runes) : c = '\n' := by
  rcases breaks_of_mem h with hc | hbreak
  · exact hc.symm
  · cases hbreak

end Lexeme

namespace Text

/-- The text goes on behind the token `e` with runes that begin no token, those of `gap`, and
then with a newline. -/
structure LineEnds (t : Text) (e : Entry) (gap : List Char) : Prop where
  stands : ∃ before behind, t.runes = before ++ (e.token.lexeme.toList ++ (gap ++ '\n' :: behind)) ∧
    Position.start.afterAll before = e.pos
  skipped : ∀ c ∈ gap, isSpace c = true ∨ isInvalid c = true

end Text

namespace Lexer

def taken (n : Nat) (x : Lexer) : List Entry :=
  (List.range n).map fun i => (x.nextBy (i + 1)).current

theorem taken_succ (n : Nat) (x : Lexer) :
    x.taken (n + 1) = x.taken n ++ [(x.nextBy (n + 1)).current] := by
  rw [taken, List.range_succ, List.map_append]
  rfl

/-- A lexer counts the parentheses of the tokens it has returned. -/
theorem depth_nextBy (n : Nat) (x : Lexer) :
    (x.nextBy n).current.depth = depthBehind x.current.depth (x.taken n) := by
  induction n with
  | zero => rfl
  | succ n ih =>
    rw [taken_succ, depthBehind_append, ← ih, nextBy_succ, depth_next]
    rfl

variable {x : Lexer}

/-- The next token has a newline in it exactly if that is what comes behind the gap. -/
theorem newline_mem_iff : '\n' ∈ x.next.current.token.lexeme.toList ↔
    ∃ cs, x.ahead = '\n' :: cs := by
  rw [x.toList_lexeme_next]
  constructor
  · intro h
    cases ha : x.ahead with
    | nil =>
      rw [lexeme, ha] at h
      cases h
    | cons c cs =>
      rw [lexeme_eq_scan ha] at h
      exact ⟨cs, by rw [Lexeme.newline_of_mem h]⟩
  · rintro ⟨cs, ha⟩
    rw [lexeme_eq_scan ha, Lexeme.scan_newline]
    exact List.mem_singleton_self _

theorem token_of_newline {cs : List Char} (h : x.ahead = '\n' :: cs) :
    x.next.current.token = .newline := by
  rw [x.token_next, lexeme_eq_scan h, Lexeme.scan_newline]
  rfl

theorem ahead_of_newline (h : x.next.current.token = .newline) : ∃ cs, x.ahead = '\n' :: cs := by
  rw [← newline_mem_iff, h]
  exact List.mem_singleton_self _

/-- Where a newline is kept, it is the next token if only what is passed over is in front. -/
theorem gap_of_newline (hkeep : x.current.keepsNewline = true) {gap behind : List Char}
    (hrest : x.rest = gap ++ '\n' :: behind)
    (hgap : ∀ c ∈ gap, isSpace c = true ∨ isInvalid c = true) :
    x.gap = gap ∧ x.ahead = '\n' :: behind := by
  have hin : ∀ c ∈ gap, inGap x.current.keepsNewline c = true := by
    intro c hc
    rcases hgap c hc with h | h <;> simp [inGap, h]
  have hhead : ∀ c, ('\n' :: behind).head? = some c → inGap x.current.keepsNewline c = false := by
    rintro c ⟨⟩
    rw [hkeep]
    decide
  exact gap_eq hrest hin hhead

/-- The step: whether the next token is a newline depends on the last one and on the text up
to the next rune that begins a token. -/
theorem token_eq_newline_iff : x.next.current.token = .newline ↔
    x.current.keepsNewline = true ∧ ∃ gap behind, x.rest = gap ++ '\n' :: behind ∧
      ∀ c ∈ gap, isSpace c = true ∨ isInvalid c = true := by
  constructor
  · intro h
    obtain ⟨behind, ha⟩ := ahead_of_newline h
    have hkeep : x.current.keepsNewline = true := by
      have hhead := x.head_ahead '\n' (by rw [ha]; rfl)
      simpa [inGap] using (Bool.or_eq_false_iff.1 (Bool.or_eq_false_iff.1 hhead).1).2
    refine ⟨hkeep, x.gap, behind, by rw [← ha, x.gap_append_ahead], fun c hc => ?_⟩
    have hgap := x.inGap_of_mem_gap hc
    simpa [inGap, hkeep] using hgap
  · rintro ⟨hkeep, gap, behind, hrest, hgap⟩
    exact token_of_newline (gap_of_newline hkeep hrest hgap).2

theorem StandsIn.lineEnds_iff {t : Text} (h : x.StandsIn t) {gap : List Char} :
    t.LineEnds x.next.current gap ↔ (∃ behind, x.next.rest = gap ++ '\n' :: behind) ∧
      ∀ c ∈ gap, isSpace c = true ∨ isInvalid c = true := by
  obtain ⟨before, hr, hp⟩ := h
  have hfront : t.runes = (before ++ x.gap) ++ (x.lexeme.runes ++ x.next.rest) := by
    rw [hr, x.rest_eq, List.append_assoc]
  have hpos : Position.start.afterAll (before ++ x.gap) = x.next.current.pos := by
    rw [Position.afterAll_append, hp]
    rfl
  have hword := x.toList_lexeme_next
  constructor
  · rintro ⟨⟨front, behind, ht, hfrontpos⟩, hgap⟩
    rw [hfront, hword] at ht
    have hsame := (Position.eq_of_afterAll_eq ht (hpos.trans hfrontpos.symm)).2
    exact ⟨⟨behind, List.append_cancel_left hsame⟩, hgap⟩
  · rintro ⟨⟨behind, hrest⟩, hgap⟩
    exact ⟨⟨_, behind, by rw [hfront, hword, hrest], hpos⟩, hgap⟩

/-- The invalid runes of a gap are reported with the token behind it. -/
theorem reported_of_mem_gap {as bs : List Char} {c : Char} (h : x.gap = as ++ c :: bs)
    (hc : isInvalid c = true) :
    ⟨x.pos.afterAll as, .invalidCharacter c⟩ ∈ x.next.current.reports := by
  have hgap : ∀ (as bs : List Char) (k : Nat) (p : Position),
      (k + as.length, ⟨p.afterAll as, .invalidCharacter c⟩) ∈ gapReports k p (as ++ c :: bs) := by
    intro as bs
    induction as with
    | nil =>
      intro k p
      rw [List.nil_append, gapReports, if_pos hc]
      exact List.mem_cons_self
    | cons a as ih =>
      intro k p
      have hmem := ih (k + 1) (p.after a)
      rw [List.length_cons, Nat.add_comm as.length, ← Nat.add_assoc, List.cons_append, gapReports]
      split
      · exact List.mem_cons_of_mem _ hmem
      · exact hmem
  rw [x.reports_next, h]
  exact List.mem_map.2 ⟨_, List.mem_merge_right _ (List.mem_append_left _ (hgap as bs _ _)), rfl⟩

/-- Also those in front of a newline, whether or not that is a token. -/
theorem StandsIn.reported {t : Text} (h : x.StandsIn t) {as bs : List Char} {c : Char}
    (hline : t.LineEnds x.next.current (as ++ c :: bs)) (hc : isInvalid c = true) :
    ⟨x.next.current.pos.afterAll (x.next.current.token.lexeme.toList ++ as), .invalidCharacter c⟩ ∈
      x.next.next.current.reports := by
  obtain ⟨⟨behind, hrest⟩, hskipped⟩ := h.lineEnds_iff.1 hline
  have hin : ∀ d ∈ as ++ c :: bs, inGap x.next.current.keepsNewline d = true := by
    intro d hd
    rcases hskipped d hd with h | h <;> simp [inGap, h]
  have hgap : x.next.gap = as ++ c :: (bs ++ ('\n' :: behind).takeWhile
      (inGap x.next.current.keepsNewline)) := by
    rw [gap, hrest, List.takeWhile_append_of_pos hin, List.append_assoc, List.cons_append]
  have hpos : x.next.pos = x.next.current.pos.afterAll x.next.current.token.lexeme.toList := by
    rw [x.pos_next, x.toList_lexeme_next]
  rw [Position.afterAll_append, ← hpos]
  exact reported_of_mem_gap hgap hc

theorem getLast?_taken_succ (n : Nat) (x : Lexer) :
    (x.taken (n + 1)).getLast? = some (x.nextBy (n + 1)).current := by
  rw [taken_succ, List.getLast?_append, List.getLast?_singleton]
  rfl

/-- The run: the step for each call, with the parentheses counted over all calls before it. -/
theorem nextBy_eq_newline_iff (t : Text) (n : Nat) :
    ((ofText t).nextBy (n + 1)).current.token = .newline ↔
      ∃ prev gap, ((ofText t).taken n).getLast? = some prev ∧
        prev.token.kind ∈ [.ident, .integer, .float, .complex, .parenRight, .braceRight] ∧
        depthBehind 0 ((ofText t).taken n) = 0 ∧ t.LineEnds prev gap := by
  have hdepth : ((ofText t).nextBy n).current.depth = depthBehind 0 ((ofText t).taken n) :=
    depth_nextBy n (ofText t)
  rw [nextBy_succ, token_eq_newline_iff, Entry.keepsNewline, Bool.and_eq_true, decide_eq_true_eq,
    hdepth]
  cases n with
  | zero =>
    constructor
    · rintro ⟨⟨hends, -⟩, -⟩
      cases hends
    · rintro ⟨prev, gap, hprev, -⟩
      cases hprev
  | succ n =>
    have hstands : ((ofText t).nextBy n).StandsIn t := (standsIn_ofText t).nextBy n
    simp only [getLast?_taken_succ, Option.some.injEq, exists_eq_left', exists_and_left]
    rw [nextBy_succ]
    rw [TokenKind.endsLine_iff]
    constructor
    · rintro ⟨⟨hends, hd⟩, gap, behind, hrest, hgap⟩
      exact ⟨hends, hd, gap, hstands.lineEnds_iff.2 ⟨⟨behind, hrest⟩, hgap⟩⟩
    · rintro ⟨hends, hd, gap, hline⟩
      obtain ⟨⟨behind, hrest⟩, hgap⟩ := hstands.lineEnds_iff.1 hline
      exact ⟨⟨hends, hd⟩, gap, behind, hrest, hgap⟩

/-- Of the calls of `next` on any text, one returns a newline exactly if the token returned
before it can end a construct, no parenthesis is open behind the tokens returned so far, and
only blanks and invalid runes, which are reported, are in front of the next newline.  So a
newline is not the first token, nor behind a separator, nor within parentheses; and no other
token has a newline in it. -/
theorem newline_iff (reads : List Read) (n : Nat) :
    let x := ofText (.ofReads reads)
    ((x.nextBy (n + 1)).current.token = .newline ↔
      ∃ prev gap, (x.taken n).getLast? = some prev ∧
        prev.token.kind ∈ [.ident, .integer, .float, .complex, .parenRight, .braceRight] ∧
        depthBehind 0 (x.taken n) = 0 ∧ (Text.ofReads reads).LineEnds prev gap) ∧
    (∀ prev as c bs, (x.taken n).getLast? = some prev →
      (Text.ofReads reads).LineEnds prev (as ++ c :: bs) → isInvalid c = true →
        ⟨prev.pos.afterAll (prev.token.lexeme.toList ++ as), .invalidCharacter c⟩ ∈
          (x.nextBy (n + 1)).current.reports) ∧
    ((x.nextBy (n + 1)).current.token = .newline → n ≠ 0 ∧ depthBehind 0 (x.taken n) = 0 ∧
      ∀ prev, (x.taken n).getLast? = some prev → prev.token.kind ≠ .semi) ∧
    ('\n' ∈ (x.nextBy (n + 1)).current.token.lexeme.toList →
      (x.nextBy (n + 1)).current.token = .newline) := by
  intro x
  have hiff := nextBy_eq_newline_iff (.ofReads reads) n
  refine ⟨hiff, ?_, ?_, ?_⟩
  · intro prev as c bs hprev hline hc
    cases n with
    | zero => cases hprev
    | succ n =>
      rw [getLast?_taken_succ, nextBy_succ] at hprev
      cases hprev
      rw [nextBy_succ, nextBy_succ]
      exact ((standsIn_ofText _).nextBy n).reported hline hc
  · intro h
    obtain ⟨prev, gap, hprev, hends, hd, -⟩ := hiff.1 h
    refine ⟨?_, hd, ?_⟩
    · rintro rfl
      cases hprev
    · intro prev' hprev' hsemi
      rw [hprev] at hprev'
      cases hprev'
      rw [hsemi] at hends
      revert hends
      decide
  · rw [nextBy_succ, newline_mem_iff]
    rintro ⟨cs, ha⟩
    exact token_of_newline ha

example : (Tokens.ofText (.ofReads [.bytes "\na `\n\n)\n(b\n)".toUTF8])).entries.map
    (·.token.lexeme) = ["a", "\n", ")", "\n", "(", "b", ")"] := by
  decide +kernel

end Lexer
end FrontEnd
