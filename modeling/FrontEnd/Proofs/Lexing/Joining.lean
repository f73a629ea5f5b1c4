import FrontEnd.Proofs.Lexing.Sharing
import FrontEnd.Proofs.Reading.Pieces

/-!
# One text behind another

A text with a separator and a newline behind it, and then a second text: its tokens are
those of the first, the separator, and those of the second a number of lines further
down, each with its reports.  What is reported where the second text begins comes with its
first token.
-/

namespace FrontEnd

/-! ## Further down -/

def Position.down (n : Nat) (p : Position) : Position :=
  ⟨p.line + n, p.col⟩

def Diagnostic.down (n : Nat) (d : Diagnostic) : Diagnostic :=
  ⟨d.pos.down n, d.problem⟩

namespace Position

theorem down_after (n : Nat) (p : Position) (c : Char) :
    (p.down n).after c = (p.after c).down n := by
  unfold after down
  split <;> simp
  omega

theorem down_afterAll (n : Nat) (p : Position) (cs : List Char) :
    (p.down n).afterAll cs = (p.afterAll cs).down n := by
  induction cs generalizing p with
  | nil => rfl
  | cons c cs ih => rw [afterAll_cons, afterAll_cons, down_after, ih]

end Position

def shift (n k : Nat) (r : Nat × Diagnostic) : Nat × Diagnostic :=
  (r.1 + k, r.2.down n)

theorem gapReports_shift (n j k : Nat) (p : Position) (cs : List Char) :
    gapReports (k + j) (p.down n) cs = (gapReports k p cs).map (shift n j) := by
  induction cs generalizing k p with
  | nil => rfl
  | cons c cs ih =>
    have hk : k + j + 1 = k + 1 + j := by omega
    unfold gapReports
    rw [Position.down_after, hk, ih]
    by_cases hc : isInvalid c = true
    · rw [if_pos hc, if_pos hc]
      rfl
    · rw [if_neg hc, if_neg hc]

theorem gapReports_append {k : Nat} {p : Position} {as : List Char} (cs : List Char)
    (h : ∀ c ∈ as, isInvalid c = false) :
    gapReports k p (as ++ cs) = gapReports (k + as.length) (p.afterAll as) cs := by
  induction as generalizing k p with
  | nil => rfl
  | cons a as ih =>
    obtain ⟨ha, has⟩ := List.forall_mem_cons.1 h
    have hlen : k + (a :: as).length = k + 1 + as.length := by
      rw [List.length_cons]
      omega
    rw [List.cons_append, gapReports, hlen, Position.afterAll_cons, ← ih has]
    simp [ha]

theorem le_gapReports (k : Nat) (p : Position) (cs : List Char) :
    ∀ r ∈ gapReports k p cs, k ≤ r.1 := by
  induction cs generalizing k p with
  | nil => exact fun r hr => absurd hr List.not_mem_nil
  | cons c cs ih =>
    intro r hr
    unfold gapReports at hr
    by_cases hc : isInvalid c = true
    · rw [if_pos hc] at hr
      rcases List.mem_cons.1 hr with rfl | hr
      · exact Nat.le_refl k
      · exact Nat.le_of_succ_le (ih _ _ r hr)
    · rw [if_neg hc] at hr
      exact Nat.le_of_succ_le (ih _ _ r hr)

/-- `e'` is the token `e` `n` lines further down, and comes with the reports of `e` and with
some that are `late`. -/
structure Entry.Moved (n : Nat) (late : List Diagnostic) (e e' : Entry) : Prop where
  token : e'.token = e.token
  pos : e'.pos = e.pos.down n
  reports : e'.reports = (late ++ e.reports).map (Diagnostic.down n)

namespace Utf8

theorem marks_shift (n j k : Nat) (p : Position) (ps : List Piece) :
    marks (k + j) (p.down n) ps = (marks k p ps).map (shift n j) := by
  induction ps generalizing k p with
  | nil => rfl
  | cons q qs ih =>
    have hk : k + j + 1 = k + 1 + j := by omega
    rw [marks, marks, Position.down_after, hk, ih, List.map_append, List.map_map]
    unfold Piece.mark
    simp [Function.comp_def, shift, Diagnostic.down]

end Utf8

section Due

variable {α : Type} {p : α → Bool} {le : α → α → Bool} {as bs cs : List α}

theorem takeWhile_append_none (h : ∀ b ∈ bs, p b = false) :
    (as ++ bs).takeWhile p = as.takeWhile p := by
  have hnil : bs.takeWhile p = [] := by
    cases bs with
    | nil => rfl
    | cons b bs => exact List.takeWhile_cons_of_neg (by simp [h b List.mem_cons_self])
  rw [List.takeWhile_append, hnil, List.append_nil]
  split
  · next hlen => exact (List.takeWhile_prefix p).eq_of_length hlen |>.symm
  · rfl

theorem dropWhile_append_none (h : ∀ b ∈ bs, p b = false) :
    (as ++ bs).dropWhile p = as.dropWhile p ++ bs := by
  induction as with
  | nil =>
    cases bs with
    | nil => rfl
    | cons b bs => exact List.dropWhile_cons_of_neg (by simp [h b List.mem_cons_self])
  | cons a as ih =>
    rw [List.cons_append, List.dropWhile_cons, List.dropWhile_cons, ih]
    split <;> rfl

/-- What comes before everything in the second list stays in front. -/
theorem append_merge (h : ∀ a ∈ as, ∀ c ∈ cs, le a c = true) :
    (as ++ bs).merge cs le = as ++ bs.merge cs le := by
  induction as with
  | nil => rfl
  | cons a as ih =>
    obtain ⟨ha, has⟩ := List.forall_mem_cons.1 h
    cases cs with
    | nil => simp
    | cons c cs =>
      rw [List.cons_append, List.cons_merge_cons_pos _ _ _ (ha c List.mem_cons_self), ih has,
        List.cons_append]

end Due

namespace Lexer

/-! ## The first text -/

/-- More is to be reported to `x'` than to `x`, but not before the text that is left for `x`
and one more rune have been read. -/
structure Continues (more : List (Nat × Diagnostic)) (x x' : Lexer) : Prop where
  passed : x'.passed = x.passed
  pending : x'.pending = x.pending ++ more
  within : ∀ r ∈ x.pending, r.1 ≤ x.passed + x.rest.length
  behind : ∀ r ∈ more, x.passed + x.rest.length + 1 < r.1

variable {more : List (Nat × Diagnostic)} {x x' : Lexer}

theorem passed_add_rest (x : Lexer) :
    x.next.passed + x.next.rest.length = x.passed + x.rest.length := by
  have h := congrArg List.length x.rest_eq
  simp only [List.length_append] at h
  rw [x.passed_next]
  omega

theorem Continues.next (h : Continues more x x') (hpos : x'.pos = x.pos) (hs : SameNext x x') :
    Continues more x.next x'.next ∧ x'.next.current.reports = x.next.current.reports := by
  have hpassed : x'.next.passed = x.next.passed := by
    rw [x'.passed_next, x.passed_next, h.passed, hs.gap, hs.lexeme]
  have htotal := x.passed_add_rest
  have hmore : ∀ r ∈ more, decide (r.1 ≤ x.next.passed) = false := by
    intro r hr
    have hb := h.behind r hr
    simp only [decide_eq_false_iff_not]
    omega
  have hflaws : x'.flaws = x.flaws := by
    unfold flaws
    rw [hs.lexeme, h.passed, hs.gap, hs.pos]
  refine ⟨⟨hpassed, ?_, ?_, ?_⟩, ?_⟩
  · rw [x'.pending_next, x.pending_next, hpassed, h.pending, dropWhile_append_none hmore]
  · intro r hr
    rw [x.pending_next] at hr
    rw [htotal]
    exact h.within r (List.dropWhile_subset _ hr)
  · rw [htotal]
    exact h.behind
  · rw [x'.reports_next, x.reports_next, hpassed, h.pending, takeWhile_append_none hmore, hflaws,
      h.passed, hpos, hs.gap]

theorem lexeme_end (h : x.next.current.token.kind = .eof) : x.gap = x.rest ∧
    x.lexeme = ⟨.eof, [], none⟩ := by
  have ha := x.kind_next_eq_eof.1 h
  have happ := x.gap_append_ahead
  rw [ha, List.append_nil] at happ
  refine ⟨happ, ?_⟩
  rw [lexeme, ha]
  rfl

/-- `y'` has taken a separator where `y` has come to the end, with the text `cs` behind. -/
structure Parts (cs : List Char) (more : List (Nat × Diagnostic)) (y y' : Lexer) : Prop where
  token : y'.current.token = ⟨.semi, ";"⟩
  depth : y'.current.depth = y.current.depth
  reports : y'.current.reports = y.current.reports
  rest : y'.rest = cs
  pos : y'.pos = y.pos.right 1
  passed : y'.passed = y.passed + 1
  pending : y'.pending = more

/-- The separator behind the first text takes over what its end reports. -/
theorem Continues.separator (h : Continues more x x') {cs : List Char}
    (hs : Shares x.rest [] (';' :: cs) x x') (hx : x.next.current.token.kind = .eof) :
    Parts cs more x.next x'.next := by
  obtain ⟨hgap, hlex⟩ := lexeme_end hx
  have hhead : ∀ c, (';' :: cs).head? = some c → inGap x'.current.keepsNewline c = false := by
    rintro c ⟨⟩
    cases x'.current.keepsNewline <;> decide
  have hin : ∀ c ∈ x.rest, inGap x'.current.keepsNewline c = true := by
    rw [hs.keeps, ← hgap]
    exact fun c hc => x.inGap_of_mem_gap hc
  obtain ⟨hgap', hahead'⟩ := gap_eq hs.rest' hin hhead
  have hlex' : x'.lexeme = ⟨.semi, [';'], none⟩ := by
    rw [lexeme_eq_scan hahead']
    rfl
  have hpos : x'.next.current.pos = x.next.current.pos := by
    rw [x'.pos_current_next, x.pos_current_next, hgap', hgap, hs.pos]
  have hpassed : x.next.passed = x.passed + x.rest.length := by
    rw [x.passed_next, hgap, hlex]
    rfl
  have hpassed' : x'.next.passed = x.passed + x.rest.length + 1 := by
    rw [x'.passed_next, hgap', hlex', h.passed]
    rfl
  have hdue : ∀ r ∈ x.pending, decide (r.1 ≤ x.next.passed) = true := by
    intro r hr
    rw [hpassed]
    exact decide_eq_true (h.within r hr)
  have hdue' : ∀ r ∈ x.pending, decide (r.1 ≤ x'.next.passed) = true := by
    intro r hr
    have hw := h.within r hr
    rw [hpassed']
    exact decide_eq_true (by omega)
  have hmore : ∀ r ∈ more, decide (r.1 ≤ x'.next.passed) = false := by
    intro r hr
    have hb := h.behind r hr
    rw [hpassed']
    exact decide_eq_false (by omega)
  have hreports : x'.next.current.reports = x.next.current.reports := by
    rw [x'.reports_next, x.reports_next, h.pending, takeWhile_append_none hmore,
      List.takeWhile_eq_self_iff.2 hdue, List.takeWhile_eq_self_iff.2 hdue', h.passed, hs.pos,
      hgap, hgap', flaws, flaws, hlex, hlex']
    rfl
  have hdepth : x'.next.current.depth = x.next.current.depth := by
    rw [x'.depth_next, x.depth_next, hlex, hlex', hs.depth]
    rfl
  refine ⟨?_, hdepth, hreports, ?_, ?_, ?_, ?_⟩
  · rw [x'.token_next, hlex']
    rfl
  · have happ := x'.lexeme_append_rest
    rw [hahead', hlex'] at happ
    exact (List.cons.inj happ).2
  · rw [x'.pos_next, x.pos_next, hpos, hlex, hlex']
    exact Position.after_of_ne (by decide : ';' ≠ '\n') _
  · rw [hpassed', hpassed]
  · rw [x'.pending_next, h.pending, dropWhile_append_none hmore,
      List.dropWhile_eq_nil_iff.2 hdue', List.nil_append]

/-! ## The second text -/

/-- `x'` stands `n` lines further down and `k` runes later than `x`, with the same text
before it but for some runes that belong to no token and are not reported.  Some reports
that `x` has made already are still `late` for `x'`. -/
structure Lags (n k : Nat) (skipped : List Char) (late : List (Nat × Diagnostic))
    (x x' : Lexer) : Prop where
  keeps : x'.current.keepsNewline = x.current.keepsNewline
  depth : x'.current.depth = x.current.depth
  rest : x'.rest = skipped ++ x.rest
  skips : ∀ c ∈ skipped, inGap x.current.keepsNewline c = true ∧ isInvalid c = false
  pos : x'.pos.afterAll skipped = x.pos.down n
  passed : x'.passed + skipped.length = x.passed + k
  pending : x'.pending = (late ++ x.pending).map (shift n k)
  late : ∀ r ∈ late, r.1 ≤ x.passed

variable {n k : Nat} {skipped : List Char} {late : List (Nat × Diagnostic)}

theorem shift_le (n k : Nat) (a b : Nat × Diagnostic) :
    decide ((shift n k a).1 ≤ (shift n k b).1) = decide (a.1 ≤ b.1) := by
  unfold shift
  simp

theorem due_shift (n k bound : Nat) (rs : List (Nat × Diagnostic)) :
    (rs.map (shift n k)).takeWhile (fun r => decide (r.1 ≤ bound + k)) =
      (rs.takeWhile (fun r => decide (r.1 ≤ bound))).map (shift n k) ∧
    (rs.map (shift n k)).dropWhile (fun r => decide (r.1 ≤ bound + k)) =
      (rs.dropWhile (fun r => decide (r.1 ≤ bound))).map (shift n k) := by
  have hcomp : ((fun r => decide (r.1 ≤ bound + k)) ∘ shift n k : Nat × Diagnostic → Bool) =
      fun r => decide (r.1 ≤ bound) := by
    funext r
    simp [shift]
  rw [List.takeWhile_map, List.dropWhile_map, hcomp]
  exact ⟨rfl, rfl⟩

/-- What is wrong with the runes to come is not said before they are read. -/
theorem passed_le_made (x : Lexer) :
    ∀ r ∈ gapReports x.passed x.pos x.gap ++ x.flaws, x.passed ≤ r.1 := by
  refine List.forall_mem_append.2 ⟨le_gapReports _ _ _, fun r hr => ?_⟩
  obtain ⟨f, -, rfl⟩ := List.mem_map.1 hr
  show x.passed ≤ x.passed + x.gap.length + f.seen
  omega

theorem Lags.gap_next (h : Lags n k skipped late x x') :
    x'.gap = skipped ++ x.gap ∧ x'.ahead = x.ahead := by
  have hkeeps := h.keeps
  refine gap_eq ?_ ?_ ?_
  · rw [h.rest, List.append_assoc, x.gap_append_ahead]
  · rw [hkeeps]
    refine List.forall_mem_append.2 ⟨fun c hc => (h.skips c hc).1, ?_⟩
    exact fun c hc => x.inGap_of_mem_gap hc
  · rw [hkeeps]
    exact x.head_ahead

theorem Lags.pos_next (h : Lags n k skipped late x x') :
    x'.next.current.pos = x.next.current.pos.down n := by
  rw [x'.pos_current_next, x.pos_current_next, h.gap_next.1, Position.afterAll_append, h.pos,
    Position.down_afterAll]

theorem Lags.first (h : Lags n k skipped late x x') :
    x'.passed + x'.gap.length = x.passed + x.gap.length + k := by
  have hp := h.passed
  rw [h.gap_next.1, List.length_append]
  omega

theorem Lags.made (h : Lags n k skipped late x x') :
    gapReports x'.passed x'.pos x'.gap ++ x'.flaws =
      (gapReports x.passed x.pos x.gap ++ x.flaws).map (shift n k) := by
  have hlex : x'.lexeme = x.lexeme := by rw [lexeme, lexeme, h.gap_next.2]
  have hflaws : x'.flaws = x.flaws.map (shift n k) := by
    unfold flaws
    rw [hlex, h.first, h.pos_next, List.map_map]
    refine List.map_congr_left fun f _ => ?_
    simp only [Function.comp_apply, shift, Diagnostic.down, Position.right, Position.down]
    congr 1
    omega
  rw [h.gap_next.1, gapReports_append _ fun c hc => (h.skips c hc).2, h.pos, h.passed,
    gapReports_shift, hflaws, List.map_append]

theorem Lags.late_le (h : Lags n k skipped late x x') : ∀ a ∈ late.map (shift n k),
    ∀ c ∈ (gapReports x.passed x.pos x.gap ++ x.flaws).map (shift n k),
      decide (a.1 ≤ c.1) = true := by
  intro a ha c hc
  obtain ⟨r, hr, rfl⟩ := List.mem_map.1 ha
  obtain ⟨s, hs, rfl⟩ := List.mem_map.1 hc
  rw [shift_le]
  exact decide_eq_true (Nat.le_trans (h.late r hr) (x.passed_le_made s hs))

theorem Lags.next (h : Lags n k skipped late x x') :
    Lags n k [] [] x.next x'.next ∧
      Entry.Moved n (late.map (·.2)) x.next.current x'.next.current := by
  obtain ⟨-, hahead⟩ := h.gap_next
  have hlex : x'.lexeme = x.lexeme := by rw [lexeme, lexeme, hahead]
  have hpos := h.pos_next
  have htoken : x'.next.current.token = x.next.current.token := by
    rw [x'.token_next, x.token_next, hlex]
  have hdepth : x'.next.current.depth = x.next.current.depth := by
    rw [x'.depth_next, x.depth_next, hlex, h.depth]
  have hpassed : x'.next.passed = x.next.passed + k := by
    rw [x'.passed_next, x.passed_next, h.first, hlex]
    omega
  have hlate : ∀ r ∈ late, decide (r.1 ≤ x.next.passed) = true := by
    intro r hr
    have hle : x.passed ≤ x.next.passed := by
      rw [x.passed_next]
      omega
    exact decide_eq_true (Nat.le_trans (h.late r hr) hle)
  obtain ⟨hdue, hleft⟩ := due_shift n k x.next.passed (late ++ x.pending)
  rw [List.takeWhile_append_of_pos hlate] at hdue
  replace hdue := hdue.trans List.map_append
  rw [List.dropWhile_append_of_pos hlate] at hleft
  refine ⟨⟨?_, hdepth, ?_, List.forall_mem_nil _, ?_, hpassed, ?_, List.forall_mem_nil _⟩,
    ⟨htoken, hpos, ?_⟩⟩
  · unfold Entry.keepsNewline
    rw [htoken, hdepth]
  · have happ := x'.lexeme_append_rest
    rw [hahead, hlex, ← x.lexeme_append_rest] at happ
    exact List.append_cancel_left happ
  · rw [Position.afterAll_nil, x'.pos_next, x.pos_next, hpos, hlex, Position.down_afterAll]
  · rw [x'.pending_next, x.pending_next, hpassed, h.pending, hleft, List.nil_append]
  · rw [x'.reports_next, x.reports_next, hpassed, h.pending, hdue, h.made,
      append_merge h.late_le, ← List.map_merge fun a _ b _ => (shift_le n k a b).symm]
    simp [Function.comp_def, shift]

theorem Lags.nextBy (h : Lags n k [] [] x x') (i : Nat) :
    Lags n k [] [] (x.nextBy i) (x'.nextBy i) := by
  induction i generalizing x x' with
  | zero => exact h
  | succ i ih => exact ih h.next.1

theorem Continues.nextBy (h : Continues more x x') {u q q' m : List Char}
    (hs : Shares u q q' x x') (hq' : Break q') {n : Nat}
    (hx : ∀ i < n, (x.nextBy (i + 1)).current.token.kind ≠ .eof)
    (hm : (x.nextBy n).rest = m ++ q) :
    Continues more (x.nextBy n) (x'.nextBy n) ∧ ∀ i < n,
      (x'.nextBy (i + 1)).current.reports = (x.nextBy (i + 1)).current.reports := by
  induction n generalizing m with
  | zero => exact ⟨h, nofun⟩
  | succ n ih =>
    have hlast := x.nextBy_succ n
    have hrest := (x.nextBy n).rest_eq
    rw [← hlast, hm, ← List.append_assoc, ← List.append_assoc] at hrest
    have hx' : ∀ i < n, (x.nextBy (i + 1)).current.token.kind ≠ .eof :=
      fun i hi => hx i (Nat.lt_succ_of_lt hi)
    obtain ⟨hcont, hall⟩ := ih hx' hrest
    obtain ⟨hshare, -⟩ := hs.nextBy hq' hx' hrest
    obtain ⟨-, hsame⟩ := hs.nextBy hq' hx hm
    obtain ⟨hnext, hreports⟩ := hcont.next hshare.pos (hsame n (Nat.lt_succ_self n))
    rw [← nextBy_succ, ← nextBy_succ] at hnext hreports
    refine ⟨hnext, fun i hi => ?_⟩
    rcases Nat.lt_succ_iff_lt_or_eq.1 hi with hi | rfl
    · exact hall i hi
    · exact hreports

/-! ## Both texts -/

open Utf8

abbrev ofPieces (ps : List Piece) : Lexer :=
  ofText (.ofPieces ps)

def divider : List Piece :=
  [.scalar ';', .scalar '\n']

theorem log_ofPieces (ps : List Piece) : (ofPieces ps).log.toList =
    ((marks 0 .start ps).takeWhile (·.1 = 0)).map (·.2) :=
  log_ofText _

theorem pending_ofPieces (ps : List Piece) :
    (ofPieces ps).pending = (marks 0 .start ps).dropWhile (·.1 = 0) :=
  pending_ofText _

variable {ps qs : List Piece}

theorem shares_join (ps qs : List Piece) :
    Shares (ofPieces ps).rest [] (';' :: '\n' :: qs.map Piece.rune) (ofPieces ps)
      (ofPieces (ps ++ divider ++ qs)) := by
  refine ⟨rfl, rfl, rfl, (List.append_nil _).symm, ?_⟩
  show (ps ++ divider ++ qs).map Piece.rune = ps.map Piece.rune ++ _
  rw [List.append_assoc, List.map_append]
  rfl

theorem marks_join (ps qs : List Piece) : marks 0 .start (ps ++ divider ++ qs) =
    marks 0 .start ps ++
      (marks 0 .start qs).map (shift (Position.start.afterAll (ps.map Piece.rune)).line
        (ps.length + 2)) := by
  have hdown : (Position.start.afterAll ((ps ++ divider).map Piece.rune)) =
      Position.start.down (Position.start.afterAll (ps.map Piece.rune)).line := by
    rw [List.map_append, Position.afterAll_append]
    show ((_ : Position).after ';').after '\n' = _
    rw [Position.after_newline, Position.after_of_ne (by decide : ';' ≠ '\n')]
    simp [Position.right, Position.down, Position.start, Nat.add_comm]
  have hlen : 0 + (ps ++ divider).length = 0 + (ps.length + 2) := by
    simp [divider]
  rw [marks_append, hdown, hlen, marks_shift, marks_append]
  simp [divider, marks, Piece.mark, Piece.problem?, Source.byteOrderMark]

/-- What is reported of the second text comes after all that concerns the first. -/
theorem continues_join (ps qs : List Piece) :
    Continues ((marks 0 .start qs).map
        (shift (Position.start.afterAll (ps.map Piece.rune)).line (ps.length + 2)))
      (ofPieces ps) (ofPieces (ps ++ divider ++ qs)) ∧
    (ofPieces (ps ++ divider ++ qs)).log = (ofPieces ps).log := by
  have hlen : (ofPieces ps).rest.length = ps.length := List.length_map _
  have hbehind : ∀ r ∈ (marks 0 .start qs).map
      (shift (Position.start.afterAll (ps.map Piece.rune)).line (ps.length + 2)),
      ps.length + 1 < r.1 := by
    intro r hr
    obtain ⟨r, -, rfl⟩ := List.mem_map.1 hr
    show ps.length + 1 < r.1 + (ps.length + 2)
    omega
  have hlate : ∀ r ∈ (marks 0 .start qs).map
      (shift (Position.start.afterAll (ps.map Piece.rune)).line (ps.length + 2)),
      decide (r.1 = 0) = false := by
    intro r hr
    have hb := hbehind r hr
    exact decide_eq_false (by omega)
  refine ⟨⟨rfl, ?_, ?_, ?_⟩, ?_⟩
  · rw [pending_ofPieces, pending_ofPieces, marks_join, dropWhile_append_none hlate]
  · intro r hr
    rw [pending_ofPieces] at hr
    have hb := (marks_bounds 0 .start ps r (List.dropWhile_subset _ hr)).2
    rw [hlen]
    show r.1 ≤ 0 + ps.length
    omega
  · intro r hr
    have hb := hbehind r hr
    rw [hlen]
    show 0 + ps.length + 1 < r.1
    omega
  · apply Array.toList_inj.1
    rw [log_ofPieces, log_ofPieces, marks_join, takeWhile_append_none hlate]

/-- Behind the separator the second text begins, in the first column and outside
parentheses. -/
theorem lags_join {y y' : Lexer} (h : Parts ('\n' :: qs.map Piece.rune)
      ((marks 0 .start qs).map
        (shift (Position.start.afterAll (ps.map Piece.rune)).line (ps.length + 2))) y y')
    (hdepth : y.current.depth = 0) (hpassed : y.passed = ps.length)
    (hpos : y.pos = Position.start.afterAll (ps.map Piece.rune)) :
    Lags (Position.start.afterAll (ps.map Piece.rune)).line (ps.length + 2) ['\n']
      ((marks 0 .start qs).takeWhile (·.1 = 0)) (ofPieces qs) y' := by
  refine ⟨?_, h.depth.trans hdepth, h.rest, ?_, ?_, ?_, ?_, ?_⟩
  · unfold Entry.keepsNewline
    rw [h.token]
    rfl
  · intro c hc
    rw [List.mem_singleton.1 hc]
    exact ⟨rfl, by decide⟩
  · rw [h.pos, hpos]
    show ((_ : Position).after '\n') = _
    rw [Position.after_newline]
    simp [Position.right, Position.down, ofText, Position.start, Nat.add_comm]
  · show y'.passed + 1 = 0 + (ps.length + 2)
    rw [h.passed, hpassed]
    omega
  · rw [h.pending, pending_ofPieces, List.takeWhile_append_dropWhile]
  · intro r hr
    have hz := List.mem_takeWhile_imp hr
    simp only [decide_eq_true_eq] at hz
    exact Nat.le_of_eq hz

theorem afterAll_rest (x : Lexer) : x.next.pos.afterAll x.next.rest = x.pos.afterAll x.rest := by
  rw [x.rest_eq, Position.afterAll_append, Position.afterAll_append]
  rfl

/-- Where the text ends and how long it is does not change on the way. -/
theorem end_nextBy (n : Nat) (x : Lexer) :
    (x.nextBy n).pos.afterAll (x.nextBy n).rest = x.pos.afterAll x.rest ∧
      (x.nextBy n).passed + (x.nextBy n).rest.length = x.passed + x.rest.length := by
  induction n generalizing x with
  | zero => exact ⟨rfl, rfl⟩
  | succ n ih =>
    obtain ⟨hpos, hpassed⟩ := ih x.next
    exact ⟨hpos.trans x.afterAll_rest, hpassed.trans x.passed_add_rest⟩

end Lexer

namespace Tokens

open Lexer Utf8

theorem rest_end {x : Lexer} (h : x.next.current.token.kind = .eof) : x.next.rest = [] := by
  obtain ⟨hgap, hlex⟩ := lexeme_end h
  have hrest := x.rest_eq
  rw [hgap, hlex] at hrest
  simpa using hrest

theorem entry_length (ts : Tokens) : ts.entry ts.entries.length = ts.last := by
  unfold entry
  rw [List.getD_eq_getElem?_getD, List.getElem?_eq_none (Nat.le_refl _), Option.getD_none]

/-- `ts` are the tokens of two texts and of a separator between them. -/
structure Joins (n : Nat) (late : List Diagnostic) (ts₁ ts₂ ts : Tokens) : Prop where
  length : ts.entries.length = ts₁.entries.length + 1 + ts₂.entries.length
  front : ∀ i < ts₁.entries.length, Entry.Moved 0 [] (ts₁.entry i) (ts.entry i)
  separator : (ts.entry ts₁.entries.length).token = ⟨.semi, ";"⟩
  reports : (ts.entry ts₁.entries.length).reports = ts₁.last.reports
  first : Entry.Moved n late (ts₂.entry 0) (ts.entry (ts₁.entries.length + 1))
  back : ∀ i < ts₂.entries.length,
    Entry.Moved n [] (ts₂.entry (i + 1)) (ts.entry (ts₁.entries.length + 1 + (i + 1)))

/-- What is known of three lexers one token after the other, said of their tokens. -/
theorem Joins.of_lexers {x x₁ x₂ : Lexer} {a n k : Nat} {skipped : List Char}
    {late : List (Nat × Diagnostic)} (ha : (ofLexer x₁).entries.length = a)
    (hfront : ∀ i < a, Entry.Moved 0 [] (x₁.nextBy (i + 1)).current (x.nextBy (i + 1)).current)
    (hsep : (x.nextBy (a + 1)).current.token = ⟨.semi, ";"⟩)
    (hreports : (x.nextBy (a + 1)).current.reports = (ofLexer x₁).last.reports)
    (hlags : Lags n k skipped late x₂ (x.nextBy (a + 1))) :
    Joins n (late.map (·.2)) (ofLexer x₁) (ofLexer x₂) (ofLexer x) := by
  have hfirst : Entry.Moved n (late.map (·.2)) (x₂.nextBy 1).current
      (x.nextBy (a + 1 + 1)).current := by
    rw [nextBy_succ (a + 1)]
    exact hlags.next.2
  have hback : ∀ i, Entry.Moved n [] (x₂.nextBy (i + 1 + 1)).current
      (x.nextBy (a + 1 + (i + 1) + 1)).current := by
    intro i
    have h := (hlags.next.1.nextBy i).next.2
    rw [← nextBy_succ, ← nextBy_succ] at h
    have hx : x.nextBy (a + 1 + (i + 1) + 1) = (x.nextBy (a + 1)).nextBy (i + 1 + 1) :=
      nextBy_add (a + 1) (i + 1 + 1) x
    rw [hx]
    exact h
  have htoken : ∀ i,
      (x.nextBy (a + 1 + i + 1)).current.token = (x₂.nextBy (i + 1)).current.token := by
    intro i
    cases i with
    | zero => exact hfirst.token
    | succ i => exact (hback i).token
  have hmore₁ := (le_length_iff x₁ a).1 (Nat.le_of_eq ha.symm)
  have hlength : (ofLexer x).entries.length = a + 1 + (ofLexer x₂).entries.length := by
    apply Nat.le_antisymm
    · by_contra hgt
      have hlt : a + 1 + (ofLexer x₂).entries.length + 1 ≤ (ofLexer x).entries.length := by omega
      have hne := (le_length_iff x _).1 hlt (a + 1 + (ofLexer x₂).entries.length)
        (Nat.lt_succ_self _)
      rw [htoken, ← entry_ofLexer x₂ (Nat.le_refl _), entry_length] at hne
      exact hne (ofLexer x₂).last_eof
    · refine (le_length_iff x _).2 fun i hi => ?_
      rcases Nat.lt_trichotomy i a with hlt | rfl | hgt
      · rw [(hfront i hlt).token]
        exact hmore₁ i hlt
      · rw [hsep]
        decide
      · obtain ⟨j, rfl⟩ : ∃ j, i = a + 1 + j := ⟨i - (a + 1), by omega⟩
        rw [htoken]
        exact (le_length_iff x₂ _).1 (Nat.le_refl _) j (by omega)
  refine ⟨by rw [hlength, ha], fun i hi => ?_, ?_, ?_, ?_, fun i hi => ?_⟩
  · rw [entry_ofLexer x₁ (by omega), entry_ofLexer x (by omega)]
    exact hfront i (by omega)
  · rw [ha, entry_ofLexer x (by omega), hsep]
  · rw [ha, entry_ofLexer x (by omega), hreports]
  · rw [ha, entry_ofLexer x (by omega), entry_ofLexer x₂ (Nat.zero_le _)]
    exact hfirst
  · rw [ha, entry_ofLexer x (by omega), entry_ofLexer x₂ (by omega)]
    exact hback i

/-- If the first text leaves no parenthesis open, its tokens and those of the second are the
tokens of the whole. -/
theorem joins {ps : List Piece} (qs : List Piece)
    (hdepth : (ofLexer (ofPieces ps)).last.depth = 0) :
    Joins (Position.start.afterAll (ps.map Piece.rune)).line (ofPieces qs).log.toList
      (ofLexer (ofPieces ps)) (ofLexer (ofPieces qs))
      (ofLexer (ofPieces (ps ++ divider ++ qs))) := by
  have hshares := shares_join ps qs
  have hcontinues := (continues_join ps qs).1
  have hpos : (ofPieces ps).pos.afterAll (ofPieces ps).rest =
      Position.start.afterAll (ps.map Piece.rune) := rfl
  have hpassed : (ofPieces ps).passed + (ofPieces ps).rest.length = ps.length := by
    show 0 + (ps.map Piece.rune).length = ps.length
    rw [List.length_map, Nat.zero_add]
  generalize ofPieces (ps ++ divider ++ qs) = x at hshares hcontinues ⊢
  generalize ofPieces ps = x₁ at hshares hcontinues hpos hpassed hdepth ⊢
  generalize ha : (ofLexer x₁).entries.length = a
  have hbreak : Break (';' :: '\n' :: qs.map Piece.rune) := by
    rintro c ⟨⟩
    rfl
  have hmore := (le_length_iff x₁ a).1 (Nat.le_of_eq ha.symm)
  have hlast : (x₁.nextBy (a + 1)).current = (ofLexer x₁).last := by
    rw [← entry_ofLexer x₁ (Nat.le_of_eq ha.symm), ← ha, entry_length]
  have heof : (x₁.nextBy a).next.current.token.kind = .eof := by
    rw [← nextBy_succ, hlast]
    exact (ofLexer x₁).last_eof
  have hrest : (x₁.nextBy a).rest = (x₁.nextBy a).rest ++ [] := (List.append_nil _).symm
  obtain ⟨hshare, hsame⟩ := hshares.nextBy hbreak hmore hrest
  obtain ⟨hcont, hreports⟩ := hcontinues.nextBy hshares hbreak hmore hrest
  have hparts := hcont.separator hshare heof
  obtain ⟨hpos', hpassed'⟩ := end_nextBy (a + 1) x₁
  rw [← nextBy_succ, ← nextBy_succ] at hparts
  rw [nextBy_succ, rest_end heof, ← nextBy_succ] at hpos' hpassed'
  have hlags := lags_join hparts (hlast ▸ hdepth) (hpassed'.trans hpassed) (hpos'.trans hpos)
  rw [log_ofPieces]
  refine .of_lexers ha (fun i hi => ?_) hparts.token (hparts.reports.trans (by rw [hlast])) hlags
  have htoken := (hsame i hi).token
  have hpos := (hsame i hi).pos
  rw [← nextBy_succ, ← nextBy_succ] at htoken hpos
  refine ⟨htoken, hpos, ?_⟩
  rw [hreports i hi, List.nil_append]
  exact (List.map_id _).symm

end Tokens
end FrontEnd
