import FrontEnd.Proofs.Lexing.Newlines
import FrontEnd.Proofs.Lexing.Joining
import FrontEnd.Proofs.Literal.Parts
import FrontEnd.Proofs.Reading.LineEndings

/-!
# Tokens in front of carriage returns

A carriage return is a blank, and one in front of a newline does not change where a token
ends.  So with Windows line endings a text has the same tokens, and the same is reported in
the same order.  Only the newlines that are tokens stand one column further right.
-/

namespace FrontEnd

theorem Position.after_return (p : Position) : (p.after '\r').after '\n' = p.after '\n' := by
  simp [after]

/-! ## Gaps -/

theorem invalid_return : isInvalid '\r' = false := rfl

theorem invalid_newline : isInvalid '\n' = false := by decide

section Gaps

variable {as bs : List Char}

/-- What is no invalid rune may stand at the end of a gap. -/
theorem gapReports_behind (h : ∀ c ∈ bs, isInvalid c = false) (k : Nat) (p : Position) :
    gapReports k p (as ++ bs) = gapReports k p as := by
  induction as generalizing k p with
  | nil =>
    rw [List.nil_append, ← List.append_nil bs, gapReports_append [] h]
    rfl
  | cons a as ih => rw [List.cons_append, gapReports, gapReports, ih]

theorem blankStart_behind (h : ∀ c ∈ bs, isInvalid c = false) (start p : Position) :
    blankStart start p (as ++ bs) = blankStart start p as := by
  induction as generalizing start p with
  | nil =>
    induction bs generalizing p with
    | nil => rfl
    | cons b bs ih =>
      obtain ⟨hb, hbs⟩ := List.forall_mem_cons.1 h
      have hrest := ih hbs (p.after b)
      simpa [blankStart, hb] using hrest
  | cons a as ih => rw [List.cons_append, blankStart, blankStart, ih]

theorem blankStart_returns (start p : Position) (cs : List Char) :
    blankStart start p (withReturns cs) = blankStart start p cs := by
  unfold withReturns
  induction cs generalizing start p with
  | nil => rfl
  | cons c cs ih =>
    by_cases hc : c = '\n'
    · subst hc
      rw [putBefore_self, blankStart, blankStart, blankStart, invalid_return, invalid_newline,
        Position.after_return, ← ih]
      rfl
    · rw [putBefore_of_ne hc, blankStart, blankStart, ih]

/-- The invalid runes of a gap stand where they stood. -/
theorem gapReports_returns {runes w rest : List Char} {k : Nat} (p : Position)
    (h : runes.drop k = w ++ rest) :
    gapReports (later runes k) p (withReturns w) = (gapReports k p w).map (delay runes) := by
  induction w generalizing k p with
  | nil => rfl
  | cons c cs ih =>
    have hrest : runes.drop (k + 1) = cs ++ rest := by
      rw [← List.drop_drop, h]
      rfl
    have hnext : later runes (k + 1) = later runes k + (withReturns [c]).length :=
      later_add (w := [c]) h
    have hcs := ih (p.after c) hrest
    rw [hnext] at hcs
    unfold withReturns at hcs ⊢
    by_cases hc : c = '\n'
    · subst hc
      rw [putBefore_self, gapReports, gapReports, gapReports, invalid_return, invalid_newline,
        Position.after_return]
      exact hcs
    · have hlen : (putBefore '\n' '\r' [c]).length = 1 := by
        rw [putBefore_of_ne hc]
        rfl
      rw [hlen] at hcs
      rw [putBefore_of_ne hc, gapReports, gapReports, hcs]
      by_cases hi : isInvalid c = true
      · rw [if_pos hi, if_pos hi]
        rfl
      · rw [if_neg hi, if_neg hi]

end Gaps

/-! ## What is due -/

theorem delay_le (runes : List Char) (a b : Nat × Diagnostic) :
    decide ((delay runes a).1 ≤ (delay runes b).1) = decide (a.1 ≤ b.1) :=
  decide_eq_decide.2 later_le_iff

theorem due_delay (runes : List Char) (n : Nat) (rs : List (Nat × Diagnostic)) :
    (rs.map (delay runes)).takeWhile (fun r => decide (r.1 ≤ later runes n)) =
      (rs.takeWhile fun r => decide (r.1 ≤ n)).map (delay runes) ∧
    (rs.map (delay runes)).dropWhile (fun r => decide (r.1 ≤ later runes n)) =
      (rs.dropWhile fun r => decide (r.1 ≤ n)).map (delay runes) := by
  have hcomp : ((fun r => decide (r.1 ≤ later runes n)) ∘ delay runes : Nat × Diagnostic → Bool) =
      fun r => decide (r.1 ≤ n) := by
    funext r
    exact decide_eq_decide.2 later_le_iff
  rw [List.takeWhile_map, List.dropWhile_map, hcomp]
  exact ⟨rfl, rfl⟩

/-! ## Flaws -/

/-- A fault is known where it stands, or once the whole numeral has been read. -/
theorem Numeral.seen_cases {n : Numeral} {f : Fault} (h : n.fault? = some f) :
    f.seen = f.offset ∨ f.seen = n.text.length := by
  rw [fault?_eq] at h
  simp only [misshape?, Option.orElse_eq_orElse, Option.orElse_eq_or, Option.or_eq_some_iff] at h
  rcases h with (h | ⟨-, h | ⟨-, h | ⟨-, h⟩⟩⟩) | ⟨-, h⟩
  · unfold pointFault at h
    split at h <;> cases h
    exact Or.inl rfl
  · unfold digitsFault at h
    split at h <;> cases h
    exact Or.inl rfl
  · unfold exponentFault at h
    split at h
    · split at h
      · cases h
        exact Or.inl rfl
      split at h
      · cases h
        exact Or.inl rfl
      split at h <;> cases h
      exact Or.inl rfl
    · split at h <;> cases h
      exact Or.inl rfl
  · unfold digitFault at h
    split at h
    · obtain ⟨d, -, rfl⟩ := Option.map_eq_some_iff.1 h
      exact Or.inr rfl
    · cases h
  · obtain ⟨i, -, rfl⟩ := Option.map_eq_some_iff.1 h
    exact Or.inr rfl

theorem Numeral.seen_le {n : Numeral} {f : Fault} (h : n.fault? = some f) :
    f.seen ≤ n.text.length := by
  rcases seen_cases h with hseen | hseen
  · rw [fault?_eq, Option.orElse_eq_orElse, Option.orElse_eq_or, Option.or_eq_some_iff] at h
    rcases h with h | ⟨-, h⟩
    · exact hseen ▸ (misshape?_spec h).2
    · obtain ⟨i, -, rfl⟩ := Option.map_eq_some_iff.1 h
      exact Nat.le_refl _
  · exact Nat.le_of_eq hseen

theorem Lexeme.seen_le {c : Char} {cs : List Char} {f : Flaw} (h : (scan c cs).flaw = some f) :
    f.seen ≤ (scan c cs).runes.length := by
  unfold scan at h ⊢
  by_cases hi : beginsIdent c = true
  · rw [if_pos hi] at h ⊢
    unfold ident at h
    dsimp only at h
    split at h <;> cases h
    exact Nat.zero_le _
  rw [if_neg hi] at h ⊢
  by_cases hd : c.isDigit = true
  · rw [if_pos hd] at h ⊢
    obtain ⟨fault, hfault, rfl⟩ := Option.map_eq_some_iff.1 h
    exact Numeral.seen_le hfault
  rw [if_neg hd] at h
  split at h <;> cases h

namespace Entry

/-- The token with a carriage return in front of each newline.  One that is a newline stands
behind the return. -/
def returned (e : Entry) : Entry :=
  { e with pos := if e.token = .newline then e.pos.right 1 else e.pos }

theorem returned_of_ne {e : Entry} (h : e.token ≠ .newline) : e.returned = e := by
  unfold returned
  rw [if_neg h]

theorem eq_returned {e e' : Entry} (htoken : e'.token = e.token)
    (hpos : e'.pos = if e.token = .newline then e.pos.right 1 else e.pos)
    (hblank : e'.blank = e.blank) (hdepth : e'.depth = e.depth)
    (hreports : e'.reports = e.reports) : e' = e.returned := by
  obtain ⟨token, pos, blank, depth, reports⟩ := e
  obtain ⟨token', pos', blank', depth', reports'⟩ := e'
  cases htoken
  cases hblank
  cases hdepth
  cases hreports
  cases hpos
  rfl

end Entry

namespace Lexer

/-- `x'` has come as far as `x` in the text with carriage returns. -/
structure Returns (runes : List Char) (x x' : Lexer) : Prop where
  token : x'.current.token = x.current.token
  depth : x'.current.depth = x.current.depth
  stands : runes.drop x.passed = x.rest
  rest : x'.rest = withReturns x.rest
  pos : x'.pos = x.pos
  passed : x'.passed = later runes x.passed
  pending : x'.pending = x.pending.map (delay runes)
  log : x'.log = x.log

variable {runes : List Char} {x x' : Lexer}

theorem Returns.keeps (h : Returns runes x x') :
    x'.current.keepsNewline = x.current.keepsNewline := by
  unfold Entry.keepsNewline
  rw [h.token, h.depth]

theorem inGap_returns {keep : Bool} {cs : List Char} (h : ∀ c ∈ cs, inGap keep c = true) :
    ∀ c ∈ withReturns cs, inGap keep c = true := by
  intro c hc
  obtain ⟨b, hb, hc⟩ := List.mem_flatMap.1 hc
  split at hc
  · rcases List.mem_cons.1 hc with rfl | hc
    · rfl
    · exact List.mem_singleton.1 hc ▸ h b hb
  · exact List.mem_singleton.1 hc ▸ h b hb

/-- The next token has the same runes.  If it is a newline that separates, the return in front
of it is the last of the gap. -/
structure NextReturned (x x' : Lexer) (extra : List Char) : Prop where
  gap : x'.gap = withReturns x.gap ++ extra
  lexeme : x'.lexeme = x.lexeme
  runes : extra ++ x.lexeme.runes = withReturns x.lexeme.runes
  rest : x'.next.rest = withReturns x.next.rest
  extra : extra = [] ∧ x.next.current.token ≠ .newline ∨
    extra = ['\r'] ∧ x.next.current.token = .newline

/-- It is enough to know what is ahead behind the gap. -/
theorem Returns.nextReturned_of (h : Returns runes x x') {extra ahead : List Char}
    (hahead : withReturns x.ahead = extra ++ ahead)
    (hin : ∀ c ∈ extra, inGap x'.current.keepsNewline c = true)
    (hhead : ∀ c, ahead.head? = some c → inGap x'.current.keepsNewline c = false)
    (hlexeme : Lexeme.front ahead = x.lexeme)
    (hruns : extra ++ x.lexeme.runes = withReturns x.lexeme.runes)
    (hextra : extra = [] ∧ x.next.current.token ≠ .newline ∨
      extra = ['\r'] ∧ x.next.current.token = .newline) : NextReturned x x' extra := by
  have hgap : ∀ c ∈ withReturns x.gap, inGap x'.current.keepsNewline c = true :=
    inGap_returns (h.keeps ▸ fun c hc => x.inGap_of_mem_gap hc)
  have hrest : x'.rest = (withReturns x.gap ++ extra) ++ ahead := by
    rw [h.rest, ← x.gap_append_ahead, List.append_assoc, ← hahead]
    exact putBefore_append
  obtain ⟨hgap', hahead'⟩ := gap_eq hrest (List.forall_mem_append.2 ⟨hgap, hin⟩) hhead
  have hlexeme' : x'.lexeme = x.lexeme := by rw [lexeme, hahead', hlexeme]
  refine ⟨hgap', hlexeme', hruns, ?_, hextra⟩
  have happ := x'.lexeme_append_rest
  rw [← x.lexeme_append_rest, withReturns, putBefore_append] at hahead
  change withReturns _ ++ withReturns _ = _ at hahead
  rw [← hruns, List.append_assoc] at hahead
  rw [hahead', hlexeme', ← List.append_cancel_left hahead] at happ
  exact List.append_cancel_left happ

/-- A token ends in front of a return if it ends in front of a newline. -/
theorem alike_returns (cs : List Char) : Alike cs (withReturns cs) := by
  unfold withReturns
  cases cs with
  | nil => exact Or.inl rfl
  | cons c cs =>
    by_cases hc : c = '\n'
    · subst hc
      rw [putBefore_self]
      refine Or.inr ?_
      rintro d ⟨⟩
      rfl
    · rw [putBefore_of_ne hc]
      exact Or.inl rfl

theorem Returns.nextReturned (h : Returns runes x x') : ∃ extra, NextReturned x x' extra := by
  have hhead := x.head_ahead
  rw [← h.keeps] at hhead
  cases ha : x.ahead with
  | nil =>
    have hlexeme : x.lexeme = ⟨.eof, [], none⟩ := by
      rw [lexeme, ha]
      rfl
    have hnone : withReturns x.ahead = [] ++ [] := by
      rw [ha]
      rfl
    have htoken : x.next.current.token ≠ .newline := by
      rw [x.token_next, hlexeme]
      decide
    refine ⟨[], h.nextReturned_of hnone (List.forall_mem_nil _) ?_ hlexeme.symm ?_
      (Or.inl ⟨rfl, htoken⟩)⟩
    · rintro d ⟨⟩
    · rw [hlexeme]
      rfl
  | cons c cs =>
    have hlexeme := lexeme_eq_scan ha
    rw [ha] at hhead
    by_cases hc : c = '\n'
    · subst hc
      have hsplit : withReturns x.ahead = ['\r'] ++ ('\n' :: withReturns cs) := by
        rw [ha]
        exact putBefore_self
      refine ⟨['\r'], h.nextReturned_of hsplit ?_ (fun d hd => hhead d hd) ?_ ?_
        (Or.inr ⟨rfl, token_of_newline ha⟩)⟩
      · exact fun c hc => List.mem_singleton.1 hc ▸ rfl
      · rw [hlexeme, Lexeme.scan_newline]
        rfl
      · rw [hlexeme, Lexeme.scan_newline]
        rfl
    · obtain ⟨rest, hrest⟩ := Lexeme.scan_isPrefix c cs
      have hruns : withReturns (Lexeme.scan c cs).runes = (Lexeme.scan c cs).runes :=
        putBefore_of_not_mem (mt Lexeme.newline_of_mem hc)
      have hcons : withReturns (c :: cs) = c :: withReturns cs := putBefore_of_ne hc
      have hscan : Lexeme.scan c (withReturns cs) = Lexeme.scan c cs := by
        refine Lexeme.scan_alike hrest (alike_returns rest) ?_
        calc (Lexeme.scan c cs).runes ++ withReturns rest
            = withReturns (Lexeme.scan c cs).runes ++ withReturns rest := by rw [hruns]
          _ = withReturns ((Lexeme.scan c cs).runes ++ rest) := putBefore_append.symm
          _ = c :: withReturns cs := by rw [hrest, hcons]
      have hsplit : withReturns x.ahead = [] ++ (c :: withReturns cs) := by
        rw [ha]
        exact hcons
      refine ⟨[], h.nextReturned_of hsplit (List.forall_mem_nil _) (fun d hd => hhead d hd) ?_ ?_
        (Or.inl ⟨rfl, fun htoken => ?_⟩)⟩
      · rw [hlexeme]
        exact hscan
      · rw [hlexeme]
        exact hruns.symm
      · obtain ⟨ds, hds⟩ := ahead_of_newline htoken
        rw [ha] at hds
        exact hc (List.cons.inj hds).1

section Next

variable {extra : List Char}

theorem NextReturned.plain (hn : NextReturned x x' extra) : ∀ c ∈ extra, isInvalid c = false := by
  rcases hn.extra with ⟨rfl, -⟩ | ⟨rfl, -⟩
  · exact List.forall_mem_nil _
  · exact fun c hc => List.mem_singleton.1 hc ▸ invalid_return

theorem NextReturned.passed (hn : NextReturned x x' extra) (h : Returns runes x x') :
    x'.next.passed = later runes x.next.passed ∧ runes.drop x.next.passed = x.next.rest := by
  have hstands := h.stands
  rw [x.rest_eq, ← List.append_assoc] at hstands
  have hpassed : x.next.passed = x.passed + (x.gap ++ x.lexeme.runes).length := by
    rw [x.passed_next, List.length_append, Nat.add_assoc]
  constructor
  · have hlength := congrArg List.length hn.runes
    have hsplit : withReturns (x.gap ++ x.lexeme.runes) =
        withReturns x.gap ++ withReturns x.lexeme.runes := putBefore_append
    rw [hpassed, later_add hstands, hsplit, x'.passed_next, h.passed, hn.gap, hn.lexeme]
    simp only [List.length_append] at hlength ⊢
    omega
  · rw [hpassed, ← List.drop_drop, hstands, List.drop_left]

/-- Up to some rune of the next token there are the returns of the gap. -/
theorem NextReturned.later_seen (hn : NextReturned x x' []) (h : Returns runes x x') {seen : Nat}
    (hseen : seen ≤ x.lexeme.runes.length) :
    x'.passed + x'.gap.length + seen = later runes (x.passed + x.gap.length + seen) := by
  have hstands : runes.drop x.passed =
      (x.gap ++ x.lexeme.runes.take seen) ++ (x.lexeme.runes.drop seen ++ x.next.rest) := by
    rw [h.stands, x.rest_eq, List.append_assoc, ← List.append_assoc (x.lexeme.runes.take seen),
      List.take_append_drop]
  have hsplit : withReturns (x.gap ++ x.lexeme.runes.take seen) =
      withReturns x.gap ++ x.lexeme.runes.take seen := by
    have hruns : x.lexeme.runes.count '\n' = 0 := by
      have hlength := congrArg List.length hn.runes
      rw [withReturns, length_putBefore, List.nil_append] at hlength
      omega
    have hnone : '\n' ∉ x.lexeme.runes.take seen :=
      fun hm => List.count_eq_zero.1 hruns (List.mem_of_mem_take hm)
    exact putBefore_append.trans (congrArg (_ ++ ·) (putBefore_of_not_mem hnone))
  have hlater := later_add hstands
  rw [hsplit, List.length_append, List.length_append, List.length_take_of_le hseen] at hlater
  rw [h.passed, hn.gap, List.append_nil, Nat.add_assoc x.passed, hlater, Nat.add_assoc]

theorem NextReturned.flaws (hn : NextReturned x x' extra) (h : Returns runes x x') :
    x'.flaws = x.flaws.map (delay runes) := by
  have hnone : x.lexeme.flaw = none → x'.flaws = x.flaws.map (delay runes) := by
    intro hflaw
    rw [Lexer.flaws, Lexer.flaws, hn.lexeme, hflaw]
    rfl
  rcases x.ahead_cases with ha | ⟨c, cs, ha, -⟩
  · refine hnone ?_
    rw [Lexer.lexeme, ha]
    rfl
  have hlexeme := lexeme_eq_scan ha
  rcases hn.extra with ⟨rfl, -⟩ | ⟨-, htoken⟩
  · have hpos : x'.next.current.pos = x.next.current.pos := by
      rw [x'.pos_current_next, x.pos_current_next, hn.gap, List.append_nil, h.pos,
        Position.afterAll_returns]
    rw [Lexer.flaws, Lexer.flaws, hn.lexeme, hpos, List.map_map]
    refine List.map_congr_left fun f hf => ?_
    have hseen : f.seen ≤ x.lexeme.runes.length := by
      rw [hlexeme] at hf ⊢
      exact Lexeme.seen_le (Option.mem_toList.1 hf)
    rw [hn.later_seen h hseen]
    rfl
  · refine hnone ?_
    obtain ⟨ds, hds⟩ := ahead_of_newline htoken
    rw [lexeme_eq_scan hds, Lexeme.scan_newline]

theorem Returns.next (h : Returns runes x x') :
    Returns runes x.next x'.next ∧ x'.next.current = x.next.current.returned := by
  obtain ⟨extra, hn⟩ := h.nextReturned
  obtain ⟨hpassed, hstands⟩ := hn.passed h
  obtain ⟨hdue, hleft⟩ := due_delay runes x.next.passed x.pending
  have htoken : x'.next.current.token = x.next.current.token := by
    rw [x'.token_next, x.token_next, hn.lexeme]
  have hdepth : x'.next.current.depth = x.next.current.depth := by
    rw [x'.depth_next, x.depth_next, hn.lexeme, h.depth]
  have hpos : x'.next.current.pos = x.next.current.pos.afterAll extra := by
    rw [x'.pos_current_next, x.pos_current_next, hn.gap, h.pos, Position.afterAll_append,
      Position.afterAll_returns]
  have hmade : gapReports x'.passed x'.pos x'.gap ++ x'.flaws =
      (gapReports x.passed x.pos x.gap ++ x.flaws).map (delay runes) := by
    have hgap : runes.drop x.passed = x.gap ++ (x.lexeme.runes ++ x.next.rest) := by
      rw [h.stands, x.rest_eq]
    rw [hn.gap, gapReports_behind hn.plain, h.passed, h.pos, gapReports_returns _ hgap, hn.flaws h,
      List.map_append]
  have hreports : x'.next.current.reports = x.next.current.reports := by
    rw [x'.reports_next, x.reports_next, hpassed, h.pending, hdue, hmade,
      ← List.map_merge fun a _ b _ => (delay_le runes a b).symm, List.map_map]
    rfl
  have hline : x'.next.current.pos.line = x.next.current.pos.line ∧
      (if x.next.current.token = .newline then x.next.current.pos.right 1
        else x.next.current.pos) = x'.next.current.pos := by
    rw [hpos]
    rcases hn.extra with ⟨rfl, hne⟩ | ⟨rfl, he⟩
    · exact ⟨rfl, if_neg hne⟩
    · exact ⟨rfl, if_pos he⟩
  have hblank : x'.next.current.blank = x.next.current.blank := by
    have hstart : blankStart x'.pos x'.pos x'.gap = blankStart x.pos x.pos x.gap := by
      rw [hn.gap, h.pos, blankStart_behind hn.plain, blankStart_returns]
    show (decide ((blankStart x'.pos x'.pos x'.gap).line < x'.next.current.pos.line) ||
      decide ((blankStart x'.pos x'.pos x'.gap).col = 1)) = _
    rw [hstart, hline.1]
    rfl
  refine ⟨⟨htoken, hdepth, hstands, hn.rest, ?_, hpassed, ?_, ?_⟩, ?_⟩
  · rw [x'.pos_next, x.pos_next, hpos, hn.lexeme, ← Position.afterAll_append, hn.runes,
      Position.afterAll_returns]
  · rw [x'.pending_next, x.pending_next, hpassed, h.pending, hleft]
  · rw [x'.log_next, x.log_next, h.log, hreports]
  · exact Entry.eq_returned htoken hline.2.symm hblank hdepth hreports

end Next

theorem Returns.nextBy (h : Returns runes x x') (n : Nat) :
    Returns runes (x.nextBy n) (x'.nextBy n) := by
  induction n generalizing x x' with
  | zero => exact h
  | succ n ih => exact ih h.next.1

/-- What is reported at once does not wait for a return. -/
theorem returns_ofText {t t' : Text} (hr : t'.runes = withReturns t.runes)
    (h : t'.reports = t.reports.map (delay t.runes)) : Returns t.runes (ofText t) (ofText t') := by
  have hzero : (fun r : Nat × Diagnostic => decide (r.1 = 0)) = fun r => decide (r.1 ≤ 0) := by
    funext r
    simp
  have hlater : later t.runes 0 = 0 := by simp [later]
  obtain ⟨hdue, hleft⟩ := due_delay t.runes 0 t.reports
  rw [hlater, ← h, ← hzero] at hdue hleft
  refine ⟨rfl, rfl, rfl, hr, rfl, hlater.symm, ?_, ?_⟩
  · rw [pending_ofText, pending_ofText, hleft]
  · apply Array.toList_inj.1
    rw [log_ofText, log_ofText, hdue, List.map_map]
    rfl

theorem current_ofText_returned {t t' : Text} (h : (ofText t').log = (ofText t).log) :
    (ofText t').current = (ofText t).current.returned :=
  Entry.eq_returned rfl rfl rfl rfl (congrArg Array.toList h)

end Lexer

namespace Tokens

/-- All tokens but the newlines stand where they stood. -/
theorem ofLexer_returned {runes : List Char} (x : Lexer) : ∀ x', Lexer.Returns runes x x' →
    (ofLexer x').entries = (ofLexer x).entries.map Entry.returned ∧
      (ofLexer x').last = (ofLexer x).last := by
  induction x using ofLexer.induct with
  | case1 x y he =>
    intro x' h
    have hcurrent := h.next.2
    have he' : x'.next.current.token.kind = .eof := by
      rw [hcurrent]
      exact he
    obtain ⟨hes, hlast⟩ := ofLexer_end he
    obtain ⟨hes', hlast'⟩ := ofLexer_end he'
    refine ⟨by rw [hes', hes, List.map_nil], ?_⟩
    rw [hlast', hlast, hcurrent]
    refine Entry.returned_of_ne fun htoken => ?_
    change x.next.current.token.kind = .eof at he
    rw [htoken] at he
    cases he
  | case2 x y he ih =>
    intro x' h
    have hcurrent := h.next.2
    have he' : x'.next.current.token.kind ≠ .eof := by
      rw [hcurrent]
      exact he
    obtain ⟨hes, hlast⟩ := ofLexer_more he
    obtain ⟨hes', hlast'⟩ := ofLexer_more he'
    obtain ⟨hmore, hend⟩ := ih x'.next h.next.1
    rw [hes', hes, hlast', hlast, hmore, hcurrent, List.map_cons]
    exact ⟨rfl, hend⟩

end Tokens

open Utf8

/-- Reads of a text and reads of it with Windows line endings. -/
theorem Delivers.returns {reads reads' : List Read} {bytes : ByteArray}
    (h : Delivers reads bytes) (h' : Delivers reads' (bytesWithReturns bytes)) :
    Lexer.Returns (Text.ofReads reads).runes (.ofText (.ofReads reads))
      (.ofText (.ofReads reads')) := by
  rw [Text.ofReads_eq_ofPieces h, Text.ofReads_eq_ofPieces h', pieces_returns, body_returns]
  generalize body (pieces bytes 0) = ps
  refine Lexer.returns_ofText (map_rune_returns ps) ?_
  have hfirst : (ps.map Piece.rune).drop 0 = ps.map Piece.rune := rfl
  exact marks_returns 0 .start ps hfirst

end FrontEnd
