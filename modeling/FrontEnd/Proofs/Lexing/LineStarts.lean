import FrontEnd.Proofs.Lexing.Newlines

/-!
# Tokens that begin a line

A token is marked by where the last run of blanks before it began: above its line, or in
the first column.  An invalid rune ends such a run as a token does, so the mark says that
neither a token nor an invalid rune is in front of the token on its line.
-/

namespace FrontEnd

/-- The place `q` is behind those of `ps`, and in the first column exactly if none of them is
on its line. -/
structure Behind (ps : List Position) (q : Position) : Prop where
  col_pos : 0 < q.col
  line_le : ∀ p ∈ ps, p.line ≤ q.line
  col_eq_one_iff : q.col = 1 ↔ ∀ p ∈ ps, p.line ≠ q.line

theorem Position.col_pos_afterAll {p : Position} (h : 0 < p.col) (cs : List Char) :
    0 < (p.afterAll cs).col := by
  induction cs generalizing p with
  | nil => exact h
  | cons c cs ih =>
    refine ih ?_
    unfold after
    split <;> exact Nat.succ_pos _

namespace Behind

variable {ps : List Position} {p q : Position}

theorem start : Behind [] .start :=
  ⟨Nat.one_pos, nofun, fun _ => nofun, fun _ => rfl⟩

/-- What is known of the last place in front says whether `p` is the first on its line. -/
theorem first_iff (h : Behind ps q) (hle : q ≤ p) :
    q.line < p.line ∨ q.col = 1 ↔ ∀ r ∈ ps, r.line ≠ p.line := by
  rcases Position.le_iff.1 hle with hlt | ⟨heq, -⟩
  · refine iff_of_true (Or.inl hlt) fun r hr => ?_
    exact Nat.ne_of_lt (Nat.lt_of_le_of_lt (h.line_le r hr) hlt)
  · rw [h.col_eq_one_iff, heq]
    exact or_iff_right (Nat.lt_irrefl _)

theorem line_le_of_le (h : Behind ps q) (hle : q ≤ p) : ∀ r ∈ ps ++ [p], r.line ≤ p.line := by
  have hline : q.line ≤ p.line := by
    rw [Position.le_iff] at hle
    omega
  intro r hr
  rcases List.mem_append.1 hr with hr | hr
  · exact Nat.le_trans (h.line_le r hr) hline
  · rw [List.mem_singleton.1 hr]

/-- Behind what takes up room at `p` no first column follows on the line. -/
theorem right (h : Behind ps q) (hle : q ≤ p) (hcol : 0 < p.col) {n : Nat} (hn : 0 < n) :
    Behind (ps ++ [p]) (p.right n) where
  col_pos := Nat.add_pos_left hcol n
  line_le := h.line_le_of_le hle
  col_eq_one_iff := by
    have hmem : p ∈ ps ++ [p] := List.mem_append_right _ (List.mem_singleton_self p)
    refine iff_of_false ?_ fun hall => hall p hmem rfl
    show p.col + n ≠ 1
    omega

theorem newline (h : Behind ps q) (hle : q ≤ p) : Behind (ps ++ [p]) (p.after '\n') := by
  have hline := h.line_le_of_le hle
  rw [Position.after_newline]
  refine ⟨Nat.one_pos, fun r hr => Nat.le_succ_of_le (hline r hr), iff_of_true rfl fun r hr => ?_⟩
  exact Nat.ne_of_lt (Nat.lt_succ_of_le (hline r hr))

/-- The runs of blanks in a gap that stands at `p`: the last begins behind the invalid runes. -/
theorem gap (h : Behind ps q) (hle : q ≤ p) (hcol : 0 < p.col) (k : Nat) (cs : List Char) :
    Behind (ps ++ (gapReports k p cs).map (·.2.pos)) (blankStart q p cs) ∧
      blankStart q p cs ≤ p.afterAll cs := by
  induction cs generalizing ps q p k with
  | nil =>
    rw [gapReports, List.map_nil, List.append_nil]
    exact ⟨h, hle⟩
  | cons c cs ih =>
    have hcol' : 0 < (p.after c).col := Position.col_pos_afterAll hcol [c]
    rw [gapReports, blankStart, Position.afterAll_cons]
    by_cases hc : isInvalid c = true
    -- An invalid rune is no newline: the run begins anew behind it, on its line.
    · have hne : c ≠ '\n' := by
        rintro rfl
        revert hc
        decide
      have hbehind : Behind (ps ++ [p]) (p.after c) := by
        rw [Position.after_of_ne hne]
        exact h.right hle hcol Nat.one_pos
      rw [if_pos hc, if_pos hc, List.map_cons, List.append_cons]
      exact ih hbehind (Position.le_refl _) hcol' (k + 1)
    · rw [if_neg hc, if_neg hc]
      exact ih h (Position.le_trans hle (Position.le_of_lt (Position.lt_after p c))) hcol' (k + 1)

end Behind

/-- Where the invalid runes stand that a token reports. -/
def Entry.strays (e : Entry) : List Position :=
  (e.reports.filter (·.problem.isInvalidCharacter)).map (·.pos)

theorem Entry.forall_mem_strays {P : Position → Prop} {e : Entry} : (∀ p ∈ e.strays, P p) ↔
    ∀ d ∈ e.reports, d.problem.isInvalidCharacter = true → P d.pos := by
  simp only [strays, List.forall_mem_map, List.mem_filter, and_imp]

def occupied (es : List Entry) : List Position :=
  es.flatMap fun e => e.strays ++ [e.pos]

theorem forall_mem_occupied {P : Position → Prop} {es : List Entry} :
    (∀ p ∈ occupied es, P p) ↔ (∀ e ∈ es, P e.pos) ∧ ∀ e ∈ es, ∀ p ∈ e.strays, P p := by
  simp only [occupied, List.forall_mem_flatMap, List.forall_mem_append, List.forall_mem_singleton]
  exact ⟨fun h => ⟨fun e he => (h e he).2, fun e he => (h e he).1⟩,
    fun h e he => ⟨h.2 e he, h.1 e he⟩⟩

namespace Lexer

variable {x : Lexer}

theorem strays_next (h : x.Plain) :
    x.next.current.strays = (gapReports x.passed x.pos x.gap).map (·.2.pos) := by
  rw [Entry.strays, filter_invalid_next h, List.map_map]
  rfl

theorem blank_next (x : Lexer) : x.next.current.blank = true ↔
    (blankStart x.pos x.pos x.gap).line < x.next.current.pos.line ∨
      (blankStart x.pos x.pos x.gap).col = 1 := by
  show (decide _ || decide _) = true ↔ _
  rw [Bool.or_eq_true, decide_eq_true_eq, decide_eq_true_eq]
  rfl

/-- The runes of a token stay on its line, but for a newline. -/
theorem pos_next_cases (h : x.next.current.token.kind ≠ .eof) :
    (∃ n, 0 < n ∧ x.next.pos = x.next.current.pos.right n) ∨
      x.next.pos = x.next.current.pos.after '\n' := by
  obtain ⟨c, cs, ha, -⟩ := exists_ahead h
  rw [x.pos_next, lexeme_eq_scan ha]
  by_cases hmem : '\n' ∈ (Lexeme.scan c cs).runes
  · rw [Lexeme.newline_of_mem hmem, Lexeme.scan_newline]
    exact Or.inr rfl
  · rw [Position.afterAll_eq_right hmem]
    exact Or.inl ⟨_, List.length_pos_iff.2 (Lexeme.scan_runes_ne_nil c cs), rfl⟩

/-- The step: the next token is marked exactly if nothing is in front of it on its line, and is
itself in front of what follows. -/
theorem behind_next {ps : List Position} (hpos : Behind ps x.pos) (hplain : x.Plain)
    (h : x.next.current.token.kind ≠ .eof) :
    (x.next.current.blank = true ↔
      ∀ p ∈ ps ++ x.next.current.strays, p.line ≠ x.next.current.pos.line) ∧
    Behind (ps ++ x.next.current.strays ++ [x.next.current.pos]) x.next.pos := by
  obtain ⟨hbehind, hle⟩ := hpos.gap (Position.le_refl _) hpos.col_pos x.passed x.gap
  have hcol : 0 < x.next.current.pos.col := Position.col_pos_afterAll hpos.col_pos x.gap
  rw [← strays_next hplain] at hbehind
  refine ⟨x.blank_next.trans (hbehind.first_iff hle), ?_⟩
  rcases pos_next_cases h with ⟨n, hn, hnext⟩ | hnext <;> rw [hnext]
  · exact hbehind.right hle hcol hn
  · exact hbehind.newline hle

end Lexer

namespace Tokens

/-- The run: the step for each token, behind all tokens before it. -/
theorem blank_of_behind (x : Lexer) (hplain : x.Plain) {behind : List Entry} {e : Entry} :
    ∀ {ps : List Position} {front : List Entry}, Behind ps x.pos →
      (ofLexer x).entries = front ++ e :: behind →
      (e.blank = true ↔ ∀ p ∈ ps ++ occupied front ++ e.strays, p.line ≠ e.pos.line) := by
  -- Over the tokens that are left: each one taken joins the places in front.
  induction x using ofLexer.induct with
  | case1 x y he =>
    intro ps front _ h
    rw [(ofLexer_end he).1] at h
    exact absurd h.symm (List.append_ne_nil_of_right_ne_nil _ (List.cons_ne_nil _ _))
  | case2 x y he ih =>
    intro ps front hpos h
    obtain ⟨hblank, hnext⟩ := Lexer.behind_next hpos hplain he
    rw [(ofLexer_more he).1] at h
    cases front with
    | nil =>
      obtain ⟨rfl, -⟩ := List.cons.inj h
      rw [occupied, List.flatMap_nil, List.append_nil]
      exact hblank
    | cons first front =>
      obtain ⟨rfl, hrest⟩ := List.cons.inj h
      have hoccupied : occupied (x.next.current :: front) =
          x.next.current.strays ++ [x.next.current.pos] ++ occupied front := List.flatMap_cons
      rw [ih (Lexer.plain_next hplain) hnext hrest, hoccupied]
      simp only [List.append_assoc]

/-- A token of any text is marked exactly if no earlier token stands on its line and no invalid
rune that was reported up to it does. -/
theorem blank_iff (reads : List Read) {front behind : List Entry} {e : Entry}
    (h : (ofText (.ofReads reads)).entries = front ++ e :: behind) :
    e.blank = true ↔ (∀ e' ∈ front, e'.pos.line ≠ e.pos.line) ∧
      ∀ e' ∈ front ++ [e], ∀ d ∈ e'.reports, d.problem.isInvalidCharacter = true →
        d.pos.line ≠ e.pos.line := by
  have hrun := blank_of_behind _ (Lexer.plain_ofReads reads) Behind.start h
  rw [List.nil_append, List.forall_mem_append, forall_mem_occupied, and_assoc] at hrun
  simp only [Entry.forall_mem_strays] at hrun
  rw [hrun, List.forall_mem_append, List.forall_mem_singleton]

theorem blank_iff_third : ∃ front e,
    (ofText (.ofReads [.bytes ", a\n,\n b".toUTF8])).entries = front ++ [e] ∧
    front.map (·.blank) = [false, false] ∧ e.blank = true ∧
    (∀ e' ∈ front, e'.pos.line ≠ e.pos.line) ∧
      ∀ e' ∈ front ++ [e], ∀ d ∈ e'.reports, d.problem.isInvalidCharacter = true →
        d.pos.line ≠ e.pos.line := by
  have hblank : (ofText (.ofReads [.bytes ", a\n,\n b".toUTF8])).entries.map (·.blank) =
      [false, false] ++ [true] := by
    decide +kernel
  obtain ⟨front, es, hes, hfront, hlast⟩ := List.map_eq_append_iff.1 hblank
  obtain ⟨e, rfl, he⟩ := List.map_eq_singleton_iff.1 hlast
  exact ⟨front, e, hes, hfront, he, (blank_iff _ hes).1 he⟩

/-- The first token of a line need not be marked. -/
theorem exists_first_unmarked : ¬ ∀ reads front e behind,
    (ofText (.ofReads reads)).entries = front ++ e :: behind →
      (e.blank = true ↔ ∀ e' ∈ front, e'.pos.line ≠ e.pos.line) := by
  intro h
  have hblank : (ofText (.ofReads [.bytes ",a".toUTF8])).entries.map (·.blank) = [false] := by
    decide +kernel
  obtain ⟨e, hes, he⟩ := List.map_eq_singleton_iff.1 hblank
  have hfirst := (h _ [] e [] hes).2 (List.forall_mem_nil _)
  rw [he] at hfirst
  cases hfirst

end Tokens
end FrontEnd
