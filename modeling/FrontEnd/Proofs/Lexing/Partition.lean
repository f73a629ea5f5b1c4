import FrontEnd.Proofs.Lexing.Step
import FrontEnd.Proofs.Reading.Runes

/-!
# A text cut into tokens

Every rune of a text is in one token or in one gap between tokens, and in a gap there are
only blanks, newlines and runes that begin no token.  `Cut` says this of a list of tokens,
with their positions and with what is to be reported of the gaps; `cut_ofReads` says that
the tokens of a text are a cut of it and that these reports are made, and no others of
their kind.
-/

namespace FrontEnd

namespace TokenKind

def continues : TokenKind → Char → Bool
  | ident | letWord | typeWord | sealWord => continuesIdent
  | symbol | arrow | assign | colon | minus => isSymbol
  | _ => fun _ => false

end TokenKind

def isGap (c : Char) : Bool :=
  isSpace c || c = '\n' || !beginsToken c

/-- The reports of the invalid runes of a gap, where `pos` tells the position of a rune by
its index. -/
def strays (pos : Nat → Position) : Nat → List Char → List Diagnostic
  | _, [] => []
  | k, c :: cs =>
    if isInvalid c then ⟨pos k, .invalidCharacter c⟩ :: strays pos (k + 1) cs
    else strays pos (k + 1) cs

/-- The runes from index `k` on are the words of some tokens with gaps around them. -/
inductive Cut (pos : Nat → Position) :
    Nat → List Char → List Entry → Entry → List Diagnostic → Prop where
  | last {k : Nat} {gap : List Char} {e : Entry} (hg : ∀ c ∈ gap, isGap c = true)
      (ht : e.token = .eof) (hp : e.pos = pos (k + gap.length)) :
    Cut pos k gap [] e (strays pos k gap)
  | token {k : Nat} {gap word rest : List Char} {e last : Entry} {es : List Entry}
      {ds : List Diagnostic} (hg : ∀ c ∈ gap, isGap c = true) (hw : word ≠ [])
      (ht : e.token.lexeme = String.ofList word) (hp : e.pos = pos (k + gap.length))
      (hmax : ∀ c, rest.head? = some c → e.token.kind.continues c = false)
      (h : Cut pos (k + gap.length + word.length) rest es last ds) :
    Cut pos k (gap ++ (word ++ rest)) (e :: es) last (strays pos k gap ++ ds)

/-! ## Words -/

theorem continues_wordKind (w : List Char) (d : Char) :
    (wordKind w).continues d = continuesIdent d := by
  rcases wordKind_cases w with ⟨h, -⟩ | ⟨h, -⟩ | ⟨h, -⟩ | h <;> rw [h] <;> rfl

theorem continues_symbolKind (w : List Char) (d : Char) :
    (symbolKind w).continues d = isSymbol d := by
  rcases symbolKind_cases w with ⟨h, -⟩ | ⟨h, -⟩ | ⟨h, -⟩ | h <;> rw [h] <;> rfl

namespace Lexeme

/-- A token takes in as much as it can. -/
theorem scan_maximal {c : Char} (h : beginsToken c = true) {cs rest : List Char}
    (hr : (scan c cs).runes ++ rest = c :: cs) {d : Char} (hd : rest.head? = some d) :
    (scan c cs).kind.continues d = false := by
  rcases scan_cases h cs with ⟨-, hs⟩ | ⟨-, hs⟩ | ⟨k, hk, hs⟩ | ⟨-, hs⟩ <;> rw [hs] at hr ⊢
  · rw [← ident_append c cs, List.append_cancel_left_eq] at hr
    have hn := List.head?_dropWhile_not continuesIdent cs
    rw [← hr, hd] at hn
    exact (continues_wordKind _ d).trans (by simpa using hn)
  · show (Numeral.kind _).continues d = false
    rcases Numeral.kind_cases (Numeral.read (c :: cs)).1 with h | h | h <;> rw [h] <;> rfl
  · show k.continues d = false
    unfold single? at hk
    split at hk <;> cases hk <;> rfl
  · rw [← symbol_append c cs, List.append_cancel_left_eq] at hr
    have hn := List.head?_dropWhile_not isSymbol cs
    rw [← hr, hd] at hn
    exact (continues_symbolKind _ d).trans (by simpa using hn)

/-- What can be wrong within a token: a digit that begins an identifier, or a number. -/
theorem front_flaw_cases {cs : List Char} {f : Flaw} (h : (front cs).flaw = some f) :
    (∃ c, f.problem = .leadingDigit c) ∨ ∃ defect, f.problem = .numeral defect := by
  cases cs with
  | nil => cases h
  | cons c cs =>
    change (scan c cs).flaw = some f at h
    unfold scan at h
    split at h
    · unfold ident at h
      dsimp only at h
      split at h <;> cases h
      exact Or.inl ⟨c, rfl⟩
    · split at h
      · obtain ⟨fault, -, rfl⟩ := Option.map_eq_some_iff.1 h
        exact Or.inr ⟨fault.defect, rfl⟩
      · split at h <;> cases h

theorem front_flaw {cs : List Char} {f : Flaw} (h : (front cs).flaw = some f) :
    f.problem.isInvalidCharacter = false := by
  rcases front_flaw_cases h with ⟨c, hf⟩ | ⟨defect, hf⟩ <;> rw [hf] <;> rfl

end Lexeme

theorem isGap_of_inGap {keep : Bool} {c : Char} (h : inGap keep c = true) : isGap c = true := by
  simp only [inGap, isInvalid, isGap, Bool.or_eq_true, Bool.and_eq_true] at h ⊢
  rcases h with (h | h) | h
  · exact Or.inl (Or.inl h)
  · exact Or.inl (Or.inr h.1)
  · exact Or.inr h.2

/-! ## Positions -/

/-- `pos` tells where the runes `cs` stand, the first of which has index `k` and stands at
`p`, and where they end. -/
def Stands (pos : Nat → Position) (k : Nat) (p : Position) (cs : List Char) : Prop :=
  ∀ i ≤ cs.length, pos (k + i) = p.afterAll (cs.take i)

namespace Stands

variable {pos : Nat → Position} {k : Nat} {p : Position} {as bs : List Char}

theorem prefix_end (h : Stands pos k p (as ++ bs)) : pos (k + as.length) = p.afterAll as := by
  have hi := h as.length (by simp)
  rw [List.take_left] at hi
  exact hi

theorem front (h : Stands pos k p (as ++ bs)) : Stands pos k p as := by
  intro i hi
  have hle : i ≤ (as ++ bs).length := by
    rw [List.length_append]
    omega
  rw [h i hle, List.take_append_of_le_length hi]

theorem shift (h : Stands pos k p (as ++ bs)) : Stands pos (k + as.length) (p.afterAll as) bs := by
  intro i hi
  have hle : as.length + i ≤ (as ++ bs).length := by
    rw [List.length_append]
    omega
  rw [Nat.add_assoc, h _ hle, List.take_length_add_append, Position.afterAll_append]

end Stands

theorem map_gapReports {pos : Nat → Position} {k : Nat} {p : Position} {cs : List Char}
    (h : Stands pos k p cs) : (gapReports k p cs).map (·.2) = strays pos k cs := by
  induction cs generalizing k p with
  | nil => rfl
  | cons c cs ih =>
    have hk : pos k = p := h 0 (Nat.zero_le _)
    have hcs : Stands pos k p ([c] ++ cs) := h
    have hs : Stands pos (k + 1) (p.after c) cs := hcs.shift
    unfold gapReports strays
    by_cases hc : isInvalid c = true
    · rw [if_pos hc, if_pos hc, List.map_cons, ih hs, hk]
    · rw [if_neg hc, if_neg hc, ih hs]

/-! ## Reports -/

theorem filter_merge_right {α : Type} {p : α → Bool} {le : α → α → Bool} {as bs : List α}
    (h : ∀ a ∈ as, p a = false) : (as.merge bs le).filter p = bs.filter p := by
  induction as generalizing bs with
  | nil => rw [List.nil_merge]
  | cons a as ih =>
    obtain ⟨ha, has⟩ := List.forall_mem_cons.1 h
    induction bs with
    | nil =>
      rw [List.merge_right]
      exact List.filter_eq_nil_iff.2 fun x hx => by simp [h x hx]
    | cons b bs ihb =>
      by_cases hle : le a b = true
      · rw [List.cons_merge_cons_pos _ _ _ hle, List.filter_cons_of_neg (by simp [ha]), ih has]
      · rw [List.cons_merge_cons_neg _ _ _ hle, List.filter_cons, List.filter_cons, ihb]

namespace Lexer

def Plain (x : Lexer) : Prop :=
  ∀ r ∈ x.pending, r.2.problem.isReading = true

def refused (x : Lexer) : List Diagnostic :=
  x.log.toList.filter (·.problem.isInvalidCharacter)

variable {x : Lexer}

theorem plain_next (h : x.Plain) : x.next.Plain := by
  intro r hr
  rw [x.pending_next] at hr
  exact h r (List.dropWhile_subset _ hr)

theorem Plain.nextBy (h : x.Plain) (n : Nat) : (x.nextBy n).Plain := by
  induction n generalizing x with
  | zero => exact h
  | succ n ih => exact ih (plain_next h)

theorem refused_gapReports (k : Nat) (p : Position) (cs : List Char) :
    ∀ r ∈ gapReports k p cs, r.2.problem.isInvalidCharacter = true := by
  induction cs generalizing k p with
  | nil => exact fun r hr => absurd hr List.not_mem_nil
  | cons c cs ih =>
    unfold gapReports
    by_cases hc : isInvalid c = true
    · rw [if_pos hc]
      exact List.forall_mem_cons.2 ⟨rfl, ih _ _⟩
    · rw [if_neg hc]
      exact ih _ _

theorem plain_flaws (x : Lexer) : ∀ r ∈ x.flaws, r.2.problem.isInvalidCharacter = false := by
  intro r hr
  obtain ⟨f, hf, rfl⟩ := List.mem_map.1 hr
  exact Lexeme.front_flaw (Option.mem_toList.1 hf)

/-- Of what does not concern the reading, a token reports what is wrong in the gap before it and
within it. -/
theorem filter_reports_next (h : x.Plain) {p : Problem → Bool}
    (hp : ∀ q, q.isReading = true → p q = false) :
    x.next.current.reports.filter (p ·.problem) =
      ((gapReports x.passed x.pos x.gap).filter (p ·.2.problem) ++
        x.flaws.filter (p ·.2.problem)).map (·.2) := by
  have hdue : ∀ r ∈ x.pending.takeWhile (·.1 ≤ x.next.passed), p r.2.problem = false :=
    fun r hr => hp _ (h r (List.takeWhile_subset _ hr))
  have hcomp : ((p ·.problem) ∘ (·.2) : Nat × Diagnostic → Bool) = (p ·.2.problem) := rfl
  rw [x.reports_next, List.filter_map, hcomp, filter_merge_right hdue, List.filter_append]

/-- The invalid runes that a token reports are those of the gap before it. -/
theorem filter_invalid_next (h : x.Plain) :
    x.next.current.reports.filter (·.problem.isInvalidCharacter) =
      (gapReports x.passed x.pos x.gap).map (·.2) := by
  have hgap : (gapReports x.passed x.pos x.gap).filter (·.2.problem.isInvalidCharacter) =
      gapReports x.passed x.pos x.gap :=
    List.filter_eq_self.2 (refused_gapReports _ _ _)
  have hflaws : x.flaws.filter (·.2.problem.isInvalidCharacter) = [] :=
    List.filter_eq_nil_iff.2 fun r hr => by simp [x.plain_flaws r hr]
  have hreports := filter_reports_next h fun _ => Problem.isInvalidCharacter_of_isReading
  rw [hreports, hgap, hflaws, List.append_nil]

theorem refused_next (h : x.Plain) :
    x.next.refused = x.refused ++ (gapReports x.passed x.pos x.gap).map (·.2) := by
  unfold refused
  rw [x.log_next, Array.toList_appendList, List.filter_append, filter_invalid_next h]

end Lexer

namespace Tokens

theorem isGap_of_mem_gap (x : Lexer) : ∀ c ∈ x.gap, isGap c = true :=
  fun _ hc => isGap_of_inGap (x.inGap_of_mem_gap hc)

/-- The runes that are left are cut by the tokens that are left. -/
theorem cut_ofLexer {pos : Nat → Position} (x : Lexer) (hs : Stands pos x.passed x.pos x.rest)
    (hp : x.Plain) :
    ∃ ds, Cut pos x.passed x.rest (ofLexer x).entries (ofLexer x).last ds ∧
      (x.nextBy ((ofLexer x).entries.length + 1)).refused = x.refused ++ ds := by
  induction x using ofLexer.induct with
  | case1 x y he =>
    obtain ⟨hes, hlast⟩ := ofLexer_end he
    have ha := x.kind_next_eq_eof.1 he
    have hrest : x.rest = x.gap := by
      rw [← x.gap_append_ahead, ha, List.append_nil]
    have htoken : x.next.current.token = .eof := by
      rw [x.token_next, Lexer.lexeme, ha]
      rfl
    rw [hrest] at hs
    have hpos : x.next.current.pos = pos (x.passed + x.gap.length) := by
      rw [x.pos_current_next]
      exact (Stands.prefix_end (by rwa [List.append_nil])).symm
    refine ⟨strays pos x.passed x.gap, ?_, ?_⟩
    · rw [hes, hlast, hrest]
      exact .last (isGap_of_mem_gap x) htoken hpos
    · rw [hes]
      show x.next.refused = _
      rw [Lexer.refused_next hp, map_gapReports hs]
  | case2 x y he ih =>
    obtain ⟨hes, hlast⟩ := ofLexer_more he
    have hrest := x.rest_eq
    have hr := Lexer.refused_next hp
    rw [hrest] at hs
    have hpos : x.next.current.pos = pos (x.passed + x.gap.length) := by
      rw [x.pos_current_next]
      exact hs.prefix_end.symm
    have hnext : Stands pos x.next.passed x.next.pos x.next.rest := by
      rw [x.passed_next, x.pos_next, x.pos_current_next]
      exact hs.shift.shift
    have hgap : (gapReports x.passed x.pos x.gap).map (·.2) = strays pos x.passed x.gap :=
      map_gapReports hs.front
    obtain ⟨ds, hcut, hlog⟩ := ih hnext (Lexer.plain_next hp)
    rw [hgap] at hr
    refine ⟨strays pos x.passed x.gap ++ ds, ?_, ?_⟩
    · obtain ⟨c, cs, ha, hc⟩ := Lexer.exists_ahead he
      have hlexeme := Lexer.lexeme_eq_scan ha
      have hword : x.lexeme.runes ≠ [] := by
        rw [hlexeme]
        exact Lexeme.scan_runes_ne_nil c cs
      have hmax : ∀ d, x.next.rest.head? = some d →
          x.next.current.token.kind.continues d = false := by
        intro d hd
        have happ := x.lexeme_append_rest
        rw [ha, hlexeme] at happ
        rw [x.token_next, hlexeme]
        exact Lexeme.scan_maximal hc happ hd
      rw [hes, hlast, hrest]
      exact .token (isGap_of_mem_gap x) hword rfl hpos hmax hcut
    · rw [hes]
      show (x.next.nextBy ((ofLexer x.next).entries.length + 1)).refused = _
      rw [hlog, hr, List.append_assoc]

/-- The tokens are those that a lexer takes one after the other. -/
theorem eq_nextBy (x : Lexer) :
    (ofLexer x).entries ++ [(ofLexer x).last] =
      (List.range ((ofLexer x).entries.length + 1)).map fun i => (x.nextBy (i + 1)).current := by
  induction x using ofLexer.induct with
  | case1 x y he =>
    obtain ⟨hes, hlast⟩ := ofLexer_end he
    rw [hes, hlast]
    rfl
  | case2 x y he ih =>
    obtain ⟨hes, hlast⟩ := ofLexer_more he
    rw [hes, hlast, List.length_cons, List.range_succ_eq_map, List.map_cons, List.map_map]
    exact congrArg (x.next.current :: ·) ih

end Tokens

namespace Lexer

theorem log_ofText (t : Text) :
    (ofText t).log.toList = (t.reports.takeWhile (·.1 = 0)).map (·.2) := by
  show ((t.reports.span (·.1 = 0)).1.map (·.2)).toArray.toList = _
  rw [List.span_eq_takeWhile_dropWhile]

theorem pending_ofText (t : Text) : (ofText t).pending = t.reports.dropWhile (·.1 = 0) := by
  show (t.reports.span (·.1 = 0)).2 = _
  rw [List.span_eq_takeWhile_dropWhile]

theorem refused_ofText {t : Text} (h : ∀ r ∈ t.reports, r.2.problem.isReading = true) :
    (ofText t).Plain ∧ (ofText t).refused = [] := by
  constructor
  · intro r hr
    rw [pending_ofText] at hr
    exact h r (List.dropWhile_subset _ hr)
  · unfold refused
    rw [log_ofText, List.filter_eq_nil_iff]
    intro d hd
    obtain ⟨r, hr, rfl⟩ := List.mem_map.1 hd
    simp [Problem.isInvalidCharacter_of_isReading (h r (List.takeWhile_subset _ hr))]

end Lexer

theorem Lexer.plain_ofReads (reads : List Read) : (ofText (.ofReads reads)).Plain :=
  (refused_ofText (Text.plain_reports 0 (Source.plain_ofReads reads))).1

/-- The tokens of a text cut its runes, and what is refused of them is what is in no token
and no blank. -/
theorem cut_ofReads (reads : List Read) :
    (∀ k, (Text.ofReads reads).runes[k]? = ((Source.ofReads reads).advanceBy k).rune) ∧
    ((Tokens.ofText (.ofReads reads)).entries ++ [(Tokens.ofText (.ofReads reads)).last] =
      (List.range ((Tokens.ofText (.ofReads reads)).entries.length + 1)).map fun i =>
        ((Lexer.ofText (.ofReads reads)).nextBy (i + 1)).current) ∧
    ∃ ds, Cut (fun k => ((Source.ofReads reads).advanceBy k).pos) 0 (Text.ofReads reads).runes
        (Tokens.ofText (.ofReads reads)).entries (Tokens.ofText (.ofReads reads)).last ds ∧
      ((Lexer.ofText (.ofReads reads)).nextBy
        ((Tokens.ofText (.ofReads reads)).entries.length + 1)).refused = ds := by
  refine ⟨fun k => Text.runes_eq 0 k _, Tokens.eq_nextBy _, ?_⟩
  obtain ⟨hplain, hnone⟩ :=
    Lexer.refused_ofText (Text.plain_reports 0 (Source.plain_ofReads reads))
  have hs : Stands (fun k => ((Source.ofReads reads).advanceBy k).pos) 0 .start
      (Text.ofReads reads).runes := by
    intro i hi
    show ((Source.ofReads reads).advanceBy (0 + i)).pos = _
    rw [Nat.zero_add, ← Source.pos_ofReads reads]
    exact Text.pos_advanceBy 0 _ hi
  obtain ⟨ds, hcut, hlog⟩ := Tokens.cut_ofLexer (.ofText (.ofReads reads)) hs hplain
  exact ⟨ds, hcut, hlog.trans (congrArg (· ++ ds) hnone)⟩

end FrontEnd
