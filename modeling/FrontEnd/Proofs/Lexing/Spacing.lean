import FrontEnd.Proofs.Lexing.Joining
import FrontEnd.Proofs.Lexing.Words
import FrontEnd.Proofs.Literal.Parts

/-!
# Words and the blanks around them

The text of a token says which token it is, wherever it was found: alone it is scanned
again as that token, and between blanks it is scanned as it is alone, with the same
complaints a number of columns further right.
-/

namespace FrontEnd

/-! ## The runes of tokens -/

def continuesToken (c : Char) : Bool :=
  continuesIdent c || isSymbol c

theorem continuesToken_of_isAlpha {c : Char} (h : c.isAlpha = true) : continuesToken c = true := by
  simp [continuesToken, continuesIdent, isLetter, h]

theorem continuesToken_of_inRun {b : Base} {c : Char} (h : inRun b c = true) :
    continuesToken c = true := by
  unfold inRun at h
  rcases Bool.or_eq_true_iff.1 h with hu | hd
  · rw [of_decide_eq_true hu]
    rfl
  by_cases hb : b = .hexadecimal
  · subst hb
    exact of_isHexDigit continuesToken (by decide) hd
  · rw [Base.takes_eq_isDigit hb] at hd
    exact of_isDigit continuesToken (by decide) hd

theorem Exponent.Formed.continuesToken {e : Exponent} (h : e.Formed) {d : Char}
    (hd : d ∈ e.text) : continuesToken d = true := by
  rcases List.mem_cons.1 hd with rfl | hd
  · have hm := h.marker
    simp only [isMarker, Bool.or_eq_true, decide_eq_true_eq] at hm
    rcases hm with ((hm | hm) | hm) | hm <;> rw [hm] <;> rfl
  rcases List.mem_append.1 hd with hs | hd
  · rcases h.sign d (Option.mem_toList.1 hs) with rfl | rfl <;> rfl
  · exact continuesToken_of_inRun (h.digits d hd)

theorem Numeral.Formed.continuesToken {n : Numeral} (h : n.Formed) {d : Char}
    (hd : d ∈ n.text) : continuesToken d = true := by
  simp only [text, magnitude, mantissa, List.mem_append] at hd
  rcases hd with (((hlead | hwhole) | hfraction) | hexponent) | himaginary
  · cases hl : n.lead with
    | plain =>
      rw [hl] at hlead
      cases hlead
    | zero =>
      rw [hl] at hlead
      rw [List.mem_singleton.1 hlead]
      rfl
    | marked l =>
      rw [hl] at hlead
      rcases List.mem_cons.1 hlead with rfl | hletter
      · rfl
      · rw [List.mem_singleton.1 hletter]
        exact continuesToken_of_isAlpha (Base.isAlpha_of_ofLetter? (h.lead l hl))
  · exact continuesToken_of_inRun (h.whole d hwhole)
  · cases hf : n.fraction with
    | none =>
      rw [hf] at hfraction
      cases hfraction
    | some ds =>
      rw [hf] at hfraction
      rcases List.mem_cons.1 hfraction with rfl | hdigit
      · rfl
      · exact continuesToken_of_inRun (h.fraction ds hf d hdigit)
  · cases he : n.exponent with
    | none =>
      rw [he] at hexponent
      cases hexponent
    | some e =>
      rw [he] at hexponent
      exact (h.exponent e he).continuesToken hexponent
  · cases hi : n.imaginary with
    | false =>
      rw [hi] at himaginary
      cases himaginary
    | true =>
      rw [hi] at himaginary
      rw [List.mem_singleton.1 himaginary]
      rfl

namespace Lexeme

/-- Behind its first rune a token has only runes that tokens go on with. -/
theorem continuesToken_of_mem {c d : Char} {cs : List Char} (h : d ∈ (scan c cs).runes) :
    d = c ∨ continuesToken d = true := by
  unfold scan at h
  by_cases hi : beginsIdent c = true
  · rw [if_pos hi] at h
    refine (List.mem_cons.1 h).imp_right fun h => ?_
    rw [continuesToken, List.mem_takeWhile_imp h, Bool.true_or]
  rw [if_neg hi] at h
  by_cases hd : c.isDigit = true
  · rw [if_pos hd] at h
    exact Or.inr ((Numeral.formed_read hd cs).continuesToken h)
  rw [if_neg hd] at h
  cases hs : single? c with
  | some k =>
    rw [hs] at h
    exact Or.inl (List.mem_singleton.1 h)
  | none =>
    rw [hs] at h
    refine (List.mem_cons.1 h).imp_right fun h => ?_
    rw [continuesToken, List.mem_takeWhile_imp h, Bool.or_true]

theorem scans {c : Char} (hc : beginsToken c = true) (hne : c ≠ '\n') (cs : List Char) :
    (scan c cs).token.Scans := by
  obtain ⟨rest, hrest⟩ := scan_isPrefix c cs
  obtain ⟨d, ds, hruns⟩ := List.exists_cons_of_ne_nil (scan_runes_ne_nil c cs)
  obtain rfl : d = c := by
    rw [hruns] at hrest
    exact (List.cons.inj hrest).1
  have hend : Alike rest [] := Or.inr nofun
  have hsame : scan d ds = scan d cs := scan_alike hrest hend (by rw [List.append_nil, hruns])
  refine ⟨d, ds, ?_, hne, hc, by rw [hsame]⟩
  rw [token, String.toList_ofList, hruns]

end Lexeme

namespace Token.Scans

variable {t : Token}

theorem mem_cases (ht : t.Scans) {d : Char} (h : d ∈ t.lexeme.toList) :
    d ≠ '\n' ∧ (beginsToken d = true ∨ continuesToken d = true) := by
  obtain ⟨c, cs, htext, hne, hc, hscan⟩ := ht
  have hruns : t.lexeme.toList = (Lexeme.scan c cs).runes := by
    rw [← hscan]
    exact String.toList_ofList
  rw [hruns] at h
  rcases Lexeme.continuesToken_of_mem h with rfl | hd
  · exact ⟨hne, Or.inl hc⟩
  · refine ⟨?_, Or.inr hd⟩
    rintro rfl
    revert hd
    decide

theorem newline_not_mem (ht : t.Scans) : '\n' ∉ t.lexeme.toList :=
  fun h => (ht.mem_cases h).1 rfl

theorem mark_not_mem (ht : t.Scans) : Source.byteOrderMark ∉ t.lexeme.toList := by
  intro h
  have hbegin : beginsToken Source.byteOrderMark = false := by decide +kernel
  have hcontinue : continuesToken Source.byteOrderMark = false := by decide +kernel
  rcases (ht.mem_cases h).2 with hm | hm
  · rw [hbegin] at hm
    cases hm
  · rw [hcontinue] at hm
    cases hm

/-- A token that is scanned from its text is alone there. -/
theorem tokens (ht : t.Scans) {reads : List Read} (h : Delivers reads t.lexeme.toUTF8) :
    (Tokens.ofText (.ofReads reads)).entries.map (·.token) = [t] := by
  refine Spaced.tokens_ofReads ?_ h
  have heq : t.lexeme.toList = [] ++ (t.lexeme.toList ++ []) := by simp
  rw [heq]
  exact .cons (List.forall_mem_nil _) ht nofun (.nil (List.forall_mem_nil _))

end Token.Scans

namespace Tokens

theorem last_token (x : Lexer) : (ofLexer x).last.token = .eof := by
  induction x using ofLexer.induct with
  | case1 x y he =>
    rw [(ofLexer_end he).2, x.token_next, (Lexer.lexeme_end he).2]
    rfl
  | case2 x y he ih =>
    rw [(ofLexer_more he).2]
    exact ih

/-- The text of a token, read anew with nothing around it, is that token and the end. -/
theorem rescan (reads : List Read) :
    ∀ e ∈ (ofText (.ofReads reads)).entries, e.token ≠ ⟨.semi, "\n"⟩ →
      ∀ again, Delivers again e.token.lexeme.toUTF8 →
        (ofText (.ofReads again)).entries.map (·.token) = [e.token] ∧
        (ofText (.ofReads again)).last.token = .eof := by
  intro e he hnewline again hagain
  obtain ⟨c, cs, hc, htoken⟩ := exists_scan _ e he
  have hne : c ≠ '\n' := by
    rintro rfl
    exact hnewline htoken
  rw [htoken] at hagain ⊢
  exact ⟨(Lexeme.scans hc hne cs).tokens hagain, last_token _⟩

/-- A malformed number that ends where an identifier begins. -/
theorem rescan_malformed :
    ∃ e ∈ (ofText (.ofReads [.bytes "²a\n0x_x".toUTF8])).entries, e.token = ⟨.integer, "0x_"⟩ ∧
      (ofText (.ofReads [.bytes "0x_".toUTF8])).entries.map (·.token) = [e.token] ∧
      (ofText (.ofReads [.bytes "0x_".toUTF8])).last.token = .eof := by
  have hes : (ofText (.ofReads [.bytes "²a\n0x_x".toUTF8])).entries.map (·.token) =
      [⟨.ident, "²a"⟩, ⟨.semi, "\n"⟩, ⟨.integer, "0x_"⟩, ⟨.ident, "x"⟩] := by
    decide +kernel
  have hm : (⟨.integer, "0x_"⟩ : Token) ∈
      (ofText (.ofReads [.bytes "²a\n0x_x".toUTF8])).entries.map (·.token) := by
    rw [hes]
    decide
  obtain ⟨e, he, htoken⟩ := List.mem_map.1 hm
  have hnewline : e.token ≠ ⟨.semi, "\n"⟩ := by
    rw [htoken]
    decide
  refine ⟨e, he, htoken, rescan _ e he hnewline _ ?_⟩
  rw [htoken]
  exact .single _

/-- What a lexer reports up to the end comes with the tokens and with the end. -/
theorem log_ofLexer (x : Lexer) :
    (x.nextBy ((ofLexer x).entries.length + 1)).log.toList =
      x.log.toList ++ ((ofLexer x).entries.flatMap (·.reports) ++ (ofLexer x).last.reports) := by
  induction x using ofLexer.induct with
  | case1 x y he =>
    obtain ⟨hes, hlast⟩ := ofLexer_end he
    rw [hes, hlast]
    exact Array.toList_appendList
  | case2 x y he ih =>
    obtain ⟨hes, hlast⟩ := ofLexer_more he
    have hlog : x.next.log.toList = x.log.toList ++ x.next.current.reports := by
      rw [x.log_next, Array.toList_appendList]
    rw [hes, hlast, List.flatMap_cons, List.append_assoc, ← List.append_assoc, ← hlog]
    exact ih

end Tokens

/-! ## Texts without marks -/

namespace Text

def ofString (s : String) : Text :=
  .ofReads [.bytes s.toUTF8]

def reported (t : Text) : List Diagnostic :=
  ((Lexer.ofText t).nextBy ((Tokens.ofText t).entries.length + 1)).log.toList

/-- Reading a text without byte order marks has nothing to report. -/
theorem ofReads_unmarked {reads : List Read} {s : String} (h : Delivers reads s.toUTF8)
    (hs : Source.byteOrderMark ∉ s.toList) : ofReads reads = ⟨s.toList, []⟩ := by
  have hhead : Utf8.body (s.toList.map .scalar) = s.toList.map .scalar := by
    cases hcs : s.toList with
    | nil => rfl
    | cons c cs =>
      refine if_neg fun hc => hs ?_
      rw [hcs, Utf8.Piece.scalar.inj hc]
      exact List.mem_cons_self
  have hmarks : ∀ (cs : List Char) (k : Nat) (p : Position), Source.byteOrderMark ∉ cs →
      Utf8.marks k p (cs.map .scalar) = [] := by
    intro cs
    induction cs with
    | nil => exact fun _ _ _ => rfl
    | cons c cs ih =>
      intro k p hcs
      obtain ⟨hc, hcs⟩ := not_or.1 (List.mem_cons.not.1 hcs)
      rw [List.map_cons, Utf8.marks, ih _ _ hcs]
      simp [Utf8.Piece.mark, Utf8.Piece.problem?, Ne.symm hc]
  rw [ofReads_eq_ofPieces h, Utf8.pieces_string, hhead, ofPieces, hmarks _ _ _ hs, List.map_map]
  exact congrArg (Text.mk · []) (List.map_id _)

end Text

/-! ## Words between blanks -/

def Diagnostic.right (n : Nat) (d : Diagnostic) : Diagnostic :=
  ⟨d.pos.right n, d.problem⟩

def Lexeme.notes (l : Lexeme) (p : Position) : List Diagnostic :=
  l.flaw.toList.map fun f => ⟨p.right f.offset, f.problem⟩

theorem Lexeme.notes_right (l : Lexeme) (n : Nat) (p : Position) :
    l.notes (p.right n) = (l.notes p).map (·.right n) := by
  unfold notes
  rw [List.map_map]
  refine List.map_congr_left fun f _ => ?_
  simp only [Function.comp_apply, Diagnostic.right, Position.right, Nat.add_right_comm]

def IsWord (w : String) : Prop :=
  ∃ kind, Token.Alone ⟨kind, w⟩

def spread (before : String) : List (String × String) → String
  | [] => before
  | w :: words => before ++ w.1 ++ spread w.2 words

/-- The texts are words, with blanks behind each and in front of all. -/
structure Spacing (before : String) (words : List (String × String)) : Prop where
  isWord : ∀ w ∈ words, IsWord w.1
  isBlank : ∀ gap ∈ before :: words.map (·.2), ∀ c ∈ gap.toList, isSpace c = true
  /-- Only behind the last word there may be nothing. -/
  isApart : ∀ w ∈ words.dropLast, w.2 ≠ ""

theorem IsWord.scans {w : String} (h : IsWord w) : ∃ t : Token, t.lexeme = w ∧ t.Scans := by
  obtain ⟨kind, ht⟩ := h
  exact ⟨⟨kind, w⟩, rfl, ht.scans⟩

namespace Spacing

variable {before : String} {w : String × String} {words : List (String × String)}

theorem blank (h : Spacing before words) : ∀ c ∈ before.toList, isSpace c = true :=
  h.isBlank before List.mem_cons_self

theorem tail (h : Spacing before (w :: words)) : Spacing w.2 words := by
  refine ⟨(List.forall_mem_cons.1 h.isWord).2, (List.forall_mem_cons.1 h.isBlank).2, ?_⟩
  cases words with
  | nil => exact nofun
  | cons v words => exact (List.forall_mem_cons.1 h.isApart).2

theorem clear (h : Spacing before (w :: words)) : Clear (spread w.2 words).toList := by
  intro c hc
  have hblank := h.tail.blank
  cases words with
  | nil => exact hblank c (List.mem_of_mem_head? hc)
  | cons v words =>
    have hne : w.2.toList ≠ [] := by
      rw [Ne, String.toList_eq_nil_iff]
      exact h.isApart w List.mem_cons_self
    obtain ⟨d, ds, hd⟩ := List.exists_cons_of_ne_nil hne
    simp only [spread, String.toList_append, hd, List.cons_append, List.head?_cons,
      Option.some.injEq] at hc
    rw [← hc]
    exact hblank d (hd ▸ List.mem_cons_self)

theorem mark_not_mem (h : Spacing before words) :
    Source.byteOrderMark ∉ (spread before words).toList := by
  have hmark : isSpace Source.byteOrderMark = false := by decide
  induction words generalizing before with
  | nil => exact not_mem_of_run hmark h.blank
  | cons w words ih =>
    obtain ⟨t, hlexeme, ht⟩ := (h.isWord w List.mem_cons_self).scans
    simp only [spread, String.toList_append, List.mem_append, not_or]
    exact ⟨⟨not_mem_of_run hmark h.blank, hlexeme ▸ ht.mark_not_mem⟩, ih h.tail⟩

end Spacing

/-- With nothing left to report from the reading, a token between blanks brings what is
reported of itself. -/
theorem Lexer.reports_quiet {x : Lexer} (hpending : x.pending = [])
    (hgap : ∀ c ∈ x.gap, isSpace c = true) :
    x.next.current.reports = x.lexeme.notes x.next.current.pos ∧ x.next.pending = [] := by
  have hvalid : ∀ c ∈ x.gap, isInvalid c = false := fun c hc => by simp [isInvalid, hgap c hc]
  have hnone : gapReports x.passed x.pos x.gap = [] := by
    have happ := gapReports_append (k := x.passed) (p := x.pos) [] hvalid
    rw [List.append_nil] at happ
    exact happ
  constructor
  · rw [x.reports_next, hpending, hnone, List.takeWhile_nil, List.nil_merge, List.nil_append,
      flaws, List.map_map]
    rfl
  · rw [x.pending_next, hpending]
    rfl

/-- The column of a word among others is the number of runes before it. -/
theorem Tokens.ofLexer_spread {before : String} {words : List (String × String)}
    (h : Spacing before words) {x : Lexer} (hx : x.rest = (spread before words).toList)
    (hpending : x.pending = []) :
    (ofLexer x).entries.map (fun e => (e.token, e.pos, e.reports)) =
      (words.mapIdx fun i w =>
        let p := x.pos.right (spread before (words.take i)).length
        ((Lexeme.front w.1.toList).token, p, (Lexeme.front w.1.toList).notes p)) ∧
    (ofLexer x).last.reports = [] := by
  have hnewline : isSpace '\n' = false := by decide
  induction words generalizing before x with
  | nil =>
    have hall : ∀ c ∈ x.rest, inGap x.current.keepsNewline c = true :=
      fun c hc => inGap_of_isSpace _ (h.blank c (hx ▸ hc))
    have he : x.next.current.token.kind = .eof :=
      x.kind_next_eq_eof.2 (List.dropWhile_eq_nil_iff.2 hall)
    obtain ⟨hgap, hlex⟩ := Lexer.lexeme_end he
    obtain ⟨hreports, -⟩ := Lexer.reports_quiet hpending (by rw [hgap, hx]; exact h.blank)
    rw [(ofLexer_end he).1, (ofLexer_end he).2, hreports, hlex]
    exact ⟨rfl, rfl⟩
  | cons w words ih =>
    obtain ⟨t, hlexeme, ht⟩ := (h.isWord w List.mem_cons_self).scans
    have hall : ∀ c ∈ before.toList, inGap x.current.keepsNewline c = true :=
      fun c hc => inGap_of_isSpace _ (h.blank c hc)
    obtain ⟨hgap, hlex, htoken, hrest⟩ := ht.step hall h.clear
      (by rw [hx, spread, String.toList_append, String.toList_append, List.append_assoc, hlexeme])
    have hblank : ∀ c ∈ x.gap, isSpace c = true := by
      rw [hgap]
      exact h.blank
    obtain ⟨hreports, hquiet⟩ := Lexer.reports_quiet hpending hblank
    have hpos : x.next.current.pos = x.pos.right before.length := by
      rw [x.pos_current_next, hgap, Position.afterAll_eq_right (not_mem_of_run hnewline h.blank)]
      rfl
    have hend : x.next.pos = x.pos.right (before ++ w.1).length := by
      have hruns : x.lexeme.runes = w.1.toList := by
        rw [← hlexeme, ← htoken]
        exact x.toList_lexeme_next.symm
      rw [x.pos_next, hpos, hruns, Position.afterAll_eq_right (hlexeme ▸ ht.newline_not_mem),
        String.length_append]
      simp only [Position.right, Nat.add_assoc, String.length_toList]
    have he : x.next.current.token.kind ≠ .eof := by
      rw [x.token_next, htoken]
      exact ht.kind_ne_eof
    obtain ⟨hes, hlast⟩ := ih h.tail hrest hquiet
    rw [(ofLexer_more he).1, (ofLexer_more he).2, List.map_cons, hes, List.mapIdx_cons, hreports,
      hpos, x.token_next, hlex, hlexeme, hend]
    refine ⟨congrArg₂ List.cons rfl ?_, hlast⟩
    simp only [List.take_succ_cons, spread, String.length_append, Position.right, Nat.add_assoc]

namespace Spacing

variable {before : String} {words : List (String × String)} {reads : List Read}

/-- Each word is what its runes say, where they stand. -/
theorem lexed (h : Spacing before words) (hr : Delivers reads (spread before words).toUTF8) :
    (Tokens.ofText (.ofReads reads)).entries.map (·.token) =
      words.map (fun w => (Lexeme.front w.1.toList).token) ∧
    (Tokens.ofText (.ofReads reads)).entries.map (·.pos) =
      words.mapIdx (fun i _ => Position.start.right (spread before (words.take i)).length) ∧
    (Text.ofReads reads).reported =
      (words.mapIdx fun i w => (Lexeme.front w.1.toList).notes
        (Position.start.right (spread before (words.take i)).length)).flatten := by
  have htext := Text.ofReads_unmarked hr h.mark_not_mem
  have hlog : (Lexer.ofText (.ofReads reads)).log.toList = [] := by
    rw [htext]
    rfl
  obtain ⟨hes, hlast⟩ := Tokens.ofLexer_spread h (x := .ofText (.ofReads reads))
    (by rw [htext]; rfl) (by rw [htext]; rfl)
  rw [List.mapIdx_eq_zipIdx_map] at hes
  have htokens := congrArg (List.map (·.1)) hes
  have hposs := congrArg (List.map (·.2.1)) hes
  have hreports := congrArg (List.map (·.2.2)) hes
  rw [List.map_map, List.map_map] at htokens hposs hreports
  refine ⟨htokens.trans ?_, hposs.trans ?_, ?_⟩
  · have hfst := congrArg (List.map fun w : String × String => (Lexeme.front w.1.toList).token)
      (List.zipIdx_map_fst 0 words)
    rw [List.map_map] at hfst
    exact hfst
  · rw [List.mapIdx_eq_zipIdx_map]
    rfl
  · rw [Text.reported, Tokens.ofText, Tokens.log_ofLexer, hlog, hlast, List.nil_append,
      List.append_nil, List.mapIdx_eq_zipIdx_map]
    exact congrArg List.flatten hreports

end Spacing

theorem IsWord.lexed_ofReads {w : String} (h : IsWord w) {reads : List Read}
    (hr : Delivers reads w.toUTF8) :
    (Tokens.ofText (.ofReads reads)).entries.map (·.token) = [(Lexeme.front w.toList).token] ∧
    (Text.ofReads reads).reported = (Lexeme.front w.toList).notes .start := by
  have hspacing : Spacing "" [(w, "")] := by
    refine ⟨by simpa using h, ?_, nofun⟩
    intro gap hgap c hc
    have hnil : gap = "" := by simpa using hgap
    rw [hnil] at hc
    cases hc
  have hspread : spread "" [(w, "")] = w := by simp [spread]
  obtain ⟨htokens, -, hlog⟩ := hspacing.lexed (hspread.symm ▸ hr)
  exact ⟨htokens, hlog.trans (List.append_nil _)⟩

theorem IsWord.lexed {w : String} (h : IsWord w) :
    (Tokens.ofText (.ofString w)).entries.map (·.token) = [(Lexeme.front w.toList).token] ∧
    (Text.ofString w).reported = (Lexeme.front w.toList).notes .start :=
  h.lexed_ofReads (.single _)

/-- Words among blanks are the tokens that they are alone, each in the column behind the runes
before it, and what is reported is what is reported of each alone, that many columns further
right. -/
theorem Spacing.undone {before : String} {words : List (String × String)} {reads : List Read}
    (h : Spacing before words) (hr : Delivers reads (spread before words).toUTF8) :
    (Tokens.ofText (.ofReads reads)).entries.map (·.token) =
      words.flatMap (fun w => (Tokens.ofText (.ofString w.1)).entries.map (·.token)) ∧
    (Tokens.ofText (.ofReads reads)).entries.map (·.pos) =
      words.mapIdx (fun i _ => ⟨1, 1 + (spread before (words.take i)).length⟩) ∧
    (Tokens.ofText (.ofReads reads)).last.token = .eof ∧
    (Text.ofReads reads).reported =
      (words.mapIdx fun i w => (Text.ofString w.1).reported.map
        (·.right (spread before (words.take i)).length)).flatten := by
  obtain ⟨htokens, hposs, hlog⟩ := h.lexed hr
  refine ⟨htokens.trans ?_, hposs, Tokens.last_token _, hlog.trans (congrArg List.flatten ?_)⟩
  · have halone : ∀ w ∈ words, (Tokens.ofText (.ofString w.1)).entries.map (·.token) =
        [(Lexeme.front w.1.toList).token] :=
      fun w hw => (h.isWord w hw).lexed.1
    rw [List.map_eq_flatMap, List.flatMap_def, List.flatMap_def, List.map_congr_left halone]
  · refine List.mapIdx_eq_mapIdx_iff.2 fun i hi => ?_
    rw [(h.isWord _ (List.getElem_mem hi)).lexed.2, Lexeme.notes_right]

/-- Numbers that are incomplete, and a number of a foreign script where a name begins. -/
theorem Spacing.undone_incomplete :
    Spacing "\t" [("1e", " "), ("²a", "\r "), ("0x_", "")] ∧
    (Tokens.ofText (.ofString "\t1e ²a\r 0x_")).entries.map (·.token) =
      [⟨.float, "1e"⟩, ⟨.ident, "²a"⟩, ⟨.integer, "0x_"⟩] ∧
    (Tokens.ofText (.ofString "\t1e ²a\r 0x_")).entries.map (·.pos) = [⟨1, 2⟩, ⟨1, 5⟩, ⟨1, 9⟩] ∧
    (Tokens.ofText (.ofString "\t1e ²a\r 0x_")).last.token = .eof ∧
    (Text.ofString "\t1e ²a\r 0x_").reported =
      [⟨⟨1, 4⟩, .numeral .emptyExponent⟩, ⟨⟨1, 5⟩, .leadingDigit '²'⟩,
        ⟨⟨1, 12⟩, .numeral (.noDigits .hexadecimal)⟩] := by
  have hnumber : IsWord "1e" := ⟨.float, by decide +kernel⟩
  have hname : IsWord "²a" := ⟨.ident, by decide +kernel⟩
  have hbare : IsWord "0x_" := ⟨.integer, by decide +kernel⟩
  have hblank : ["\t", " ", "\r ", ""].all (·.toList.all isSpace) = true := by decide +kernel
  have h : Spacing "\t" [("1e", " "), ("²a", "\r "), ("0x_", "")] :=
    ⟨by simp [hnumber, hname, hbare],
      fun gap hgap => List.all_eq_true.1 (List.all_eq_true.1 hblank gap hgap), by decide⟩
  have hr : Delivers [.bytes "\t1e ²a\r 0x_".toUTF8]
      (spread "\t" [("1e", " "), ("²a", "\r "), ("0x_", "")]).toUTF8 := .single _
  obtain ⟨htokens, hposs, hlast, hlog⟩ := h.undone hr
  refine ⟨h, htokens.trans (by decide +kernel), hposs, hlast, hlog.trans ?_⟩
  simp only [List.mapIdx_cons, List.mapIdx_nil, hnumber.lexed.2, hname.lexed.2, hbare.lexed.2]
  decide +kernel

end FrontEnd
