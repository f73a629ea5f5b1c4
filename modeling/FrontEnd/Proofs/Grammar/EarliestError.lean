import FrontEnd.Proofs.Grammar.Completion
import FrontEnd.Proofs.Grammar.Concatenation
import FrontEnd.Proofs.Lexing.Order
import FrontEnd.Proofs.Lexing.Words

/-!
# The earliest error

A text up to the token that an error is about can be completed to one that is accepted,
and a text up to and including that token cannot: whatever follows, the error is the same.
So an error stands as far to the front as it can, and says where a text went wrong.

Both parts put a blank and other text behind a piece of the text.  The blank ends the last
token of that piece, so the tokens in it stay what they are, and the parser, which depends
on nothing else, comes as far as before.
-/

namespace FrontEnd

open Utf8

/-! ## Tokens in a shared front -/

namespace Lexer

theorem shares_ofText {t t' : Text} {u q q' : List Char} (ht : t.runes = u ++ q)
    (ht' : t'.runes = u ++ q') : Shares u q q' (ofText t) (ofText t') :=
  ⟨rfl, rfl, rfl, ht, ht'⟩

theorem toUTF8_next (x : Lexer) :
    x.next.current.token.lexeme.toUTF8 = x.lexeme.runes.utf8Encode := by
  have henc : (String.ofList x.lexeme.runes).toList.utf8Encode = _ := String.utf8Encode_toList
  rw [String.toList_ofList] at henc
  exact henc.symm

theorem ne_of_beginsToken {c d : Char} (h : beginsToken c = true) (hd : beginsToken d = false) :
    c ≠ d := by
  rintro rfl
  cases h.symm.trans hd

/-- The input up to the next token, and that token in it. -/
theorem StandsIn.exists_front {x : Lexer} {bytes : ByteArray} {reads : List Read}
    (h : x.StandsIn (.ofReads reads)) (hr : Delivers reads bytes) :
    ∃ front back, bytes = front ++ x.next.current.token.lexeme.toUTF8 ++ back ∧
      (x.next.current.token.kind = .eof → bytes = front) ∧
      Position.start.afterAll (Text.ofReads [.bytes front]).runes = x.next.current.pos ∧
      (Text.ofReads reads).runes = (Text.ofReads [.bytes front]).runes ++ x.ahead := by
  rw [← x.lexeme_append_rest]
  obtain ⟨before, hbefore, hpos⟩ := h
  have hrunes : (Text.ofReads reads).runes =
      (before ++ x.gap) ++ (x.lexeme.runes ++ x.next.rest) := by
    rw [hbefore, x.rest_eq]
    simp only [List.append_assoc]
  have hend : Position.start.afterAll (before ++ x.gap) = x.next.current.pos := by
    rw [Position.afterAll_append, hpos, x.pos_current_next]
  rw [x.toUTF8_next]
  rcases x.ahead_cases with ha | ⟨c, cs, ha, hc⟩
  · obtain ⟨hnil, hrest⟩ := List.append_eq_nil_iff.1 (x.lexeme_append_rest.trans ha)
    have hsame : (Text.ofReads [.bytes bytes]).runes = before ++ x.gap := by
      rw [Text.ofReads_eq_ofPieces (.single bytes), ← Text.ofReads_eq_ofPieces hr, hrunes, hnil,
        hrest, List.append_nil, List.append_nil]
    refine ⟨bytes, .empty, ?_, fun _ => rfl, by rw [hsame, hend], by rw [hsame, hrunes]⟩
    rw [hnil, ByteArray.append_empty]
    exact ByteArray.append_empty.symm
  · have hlex := lexeme_eq_scan ha
    obtain ⟨ds, hds⟩ := x.exists_runes ha
    have hscalar : ∀ d ∈ c :: ds, d ≠ replacement := by
      rw [← hds, hlex]
      rintro _ hd rfl
      rcases Lexeme.breaks_of_mem hd with hdc | hb
      · exact ne_of_beginsToken hc (by decide +kernel) hdc.symm
      · cases hb
    rw [hds] at hrunes ⊢
    obtain ⟨front, back, hbytes, hfront⟩ := Text.exists_bytes hr hscalar hrunes
    refine ⟨front, back, ?_, fun he => ?_, by rw [hfront, hend], by rw [hfront, hrunes]⟩
    · rw [hbytes, ByteArray.append_assoc]
    · rw [x.kind_next_eq_eof.1 he] at ha
      cases ha

end Lexer

namespace Parser

variable {s s' : Parser} {x x' : Lexer} {n : Nat}

theorem current_ofLexer (hs : s.tokens = .ofLexer x) (hn : n ≤ s.left) :
    (s.passBy n).current = (x.nextBy n).next.current := by
  unfold left at hn
  rw [hs] at hn
  rw [current_passBy, hs, Tokens.entry_ofLexer x hn, Lexer.nextBy_succ]

theorem log_ofText (path : String) (t : Text) :
    (ofText path t).log.toList = (Lexer.ofText t).next.log.toList := by
  have hfirst := current_ofLexer (s := ofText path t) (x := .ofText t) rfl (Nat.zero_le _)
  show ((Lexer.ofText t).log ++ (ofText path t).current.reports).toList = _
  rw [show (ofText path t).current = _ from hfirst]
  rfl

/-- Where the next tokens of two texts are the same, parsers find the same. -/
theorem mirrors_ofLexer (hs : s.tokens = .ofLexer x) (hs' : s'.tokens = .ofLexer x')
    (hpath : s'.path = s.path) (hn : n ≤ s.left)
    (h : ∀ i < n, Lexer.SameNext (x.nextBy i) (x'.nextBy i)) : n ≤ s'.left ∧ s.Mirrors id n s' := by
  have hne : ∀ i < n, (x.nextBy (i + 1)).current.token.kind ≠ .eof := by
    rw [← Tokens.le_length_iff, ← hs]
    exact hn
  have hn' : n ≤ s'.left := by
    unfold left
    rw [hs', Tokens.le_length_iff]
    intro i hi
    rw [Lexer.nextBy_succ, (h i hi).token, ← Lexer.nextBy_succ]
    exact hne i hi
  refine ⟨hn', fun i hi => ?_⟩
  have hc := current_ofLexer hs (Nat.le_trans (Nat.le_of_lt hi) hn)
  have hc' := current_ofLexer hs' (Nat.le_trans (Nat.le_of_lt hi) hn')
  refine ⟨?_, ?_⟩
  · rw [hc, hc']
    exact (h i hi).token
  · unfold here
    rw [hc, hc', path_passBy, path_passBy, hpath, (h i hi).pos]
    rfl

/-- At the end of all tokens a parser stands on the end. -/
theorem kind_passBy_left (hn : s.left ≤ n) : (s.passBy n).current.token.kind = .eof := by
  have hnil : (s.passBy n).tokens.entries = [] := by
    rw [tokens_passBy]
    exact List.drop_eq_nil_of_le hn
  unfold current Tokens.current
  rw [hnil]
  exact (s.passBy n).tokens.last_eof

end Parser

/-! ## Fillers as text -/

theorem Parse.fillers_scan : ∀ t ∈ Parse.fillers, t.Scans := by
  have h : ∀ t ∈ Parse.fillers, t.Alone := by decide +kernel
  exact fun t ht => (h t ht).scans

namespace Parser

variable {path : String} {reads reads' : List Read} {front : ByteArray} {n : Nat} {x x' : Lexer}

/-- Two texts that are the same up to a blank have the same tokens up to there. -/
theorem mirrors_blank {u q w m : List Char} (hx : .ofText (.ofReads reads) = x)
    (hx' : .ofText (.ofReads reads') = x') (hn : n ≤ (ofReads path reads).left)
    (hr : x.rest = u ++ q) (hr' : (Text.ofReads reads').runes = u ++ (' ' :: w))
    (hm : (x.nextBy n).rest = m ++ q) :
    Lexer.Shares m q (' ' :: w) (x.nextBy n) (x'.nextBy n) ∧
      n ≤ (ofReads path reads').left ∧ (ofReads path reads).Mirrors id n (ofReads path reads') := by
  have htokens : (ofReads path reads).tokens = .ofLexer x := hx ▸ rfl
  have htokens' : (ofReads path reads').tokens = .ofLexer x' := hx' ▸ rfl
  have hshares : Lexer.Shares _ _ _ x x' := hx ▸ hx' ▸ Lexer.shares_ofText (hx ▸ hr) hr'
  have hbreak : Break (' ' :: w) := by
    rintro _ ⟨⟩
    rfl
  obtain ⟨hlast, hsame⟩ := hshares.nextBy hbreak
    ((Tokens.le_length_iff x n).1 (htokens ▸ hn)) hm
  exact ⟨hlast, mirrors_ofLexer htokens htokens' rfl hn hsame⟩

/-- Instead of a token that it comes to, a parser finds others if these are put there. -/
theorem faces_words {ts : List Token} (hx : .ofText (.ofReads reads) = x)
    (hn : n ≤ (ofReads path reads).left) (hts : ts ⊆ Parse.fillers)
    (hr : x.rest = (Text.ofReads [.bytes front]).runes ++ (x.nextBy n).ahead)
    (hr' : Delivers reads' (front ++ " ".toUTF8 ++ (" ".intercalate (ts.map (·.lexeme))).toUTF8)) :
    (ofReads path reads).Mirrors id n (ofReads path reads') ∧
      n + ts.length = (ofReads path reads').left ∧ ((ofReads path reads').passBy n).Faces ts := by
  generalize hw : " ".intercalate (ts.map (·.lexeme)) = w at hr'
  have hspaced : Spaced ts w.toList :=
    hw ▸ Spaced.intercalate fun t ht => Parse.fillers_scan t (hts ht)
  have hrunes : (Text.ofReads reads').runes =
      (Text.ofReads [.bytes front]).runes ++ (' ' :: w.toList) := by
    have hblank : " ".toUTF8 = [' '].utf8Encode := String.utf8Encode_toList.symm
    rw [hblank, ByteArray.append_assoc] at hr'
    rw [Text.runes_append (by decide) hr', pieces_string, List.map_map]
    simp [Function.comp_def, Piece.rune]
  generalize hx' : Lexer.ofText (.ofReads reads') = x'
  obtain ⟨hlast, hn', hmirrors⟩ :=
    mirrors_blank hx hx' hn hr hrunes (x.nextBy n).gap_append_ahead.symm
  -- The gap before the token that was found stays where it is.
  have hgap : ∀ c ∈ (x.nextBy n).gap, inGap (x'.nextBy n).current.keepsNewline c = true := by
    rw [hlast.keeps]
    exact fun c hc => Lexer.inGap_of_mem_gap _ hc
  have hts' := (hspaced.blank rfl).tokens hgap hlast.rest'
  have htokens' : (ofReads path reads').tokens = .ofLexer x' := hx' ▸ rfl
  have hdrop : ((ofReads path reads').passBy n).tokens.entries =
      (Tokens.ofLexer (x'.nextBy n)).entries := by
    rw [tokens_passBy, htokens']
    exact Tokens.drop_ofLexer x' (htokens' ▸ hn')
  refine ⟨hmirrors, ?_, ?_⟩
  · have hleft := congrArg List.length hts'
    rw [List.length_map, ← hdrop] at hleft
    have hpass := (ofReads path reads').left_passBy n
    unfold left at hpass hn' ⊢
    omega
  · exact ⟨[], by rw [List.append_nil, hdrop, hts']⟩

/-- A parser that comes to a token comes to it whatever is put behind it and a blank. -/
theorem mirrors_more {more : ByteArray} (hx : .ofText (.ofReads reads) = x)
    (hn : n ≤ (ofReads path reads).left) (hne : (x.nextBy n).next.current.token.kind ≠ .eof)
    (hr : x.rest = (Text.ofReads [.bytes front]).runes ++ (x.nextBy n).ahead)
    (hr' : Delivers reads' (front ++ (x.nextBy n).next.current.token.lexeme.toUTF8 ++
      " ".toUTF8 ++ more)) :
    (ofReads path reads).Mirrors id (n + 1) (.ofReads path reads') := by
  have hn' : n + 1 ≤ (ofReads path reads).left := by
    have htokens : (ofReads path reads).tokens = .ofLexer x := hx ▸ rfl
    unfold left at hn ⊢
    rw [htokens, Tokens.le_length_iff] at hn ⊢
    intro i hi
    rcases Nat.lt_succ_iff_lt_or_eq.1 hi with hlt | rfl
    · exact hn i hlt
    · rw [Lexer.nextBy_succ]
      exact hne
  have hnext := Lexer.nextBy_succ n x
  generalize x.nextBy n = y at hne hr hr' hnext
  obtain ⟨c, cs, ha, hc⟩ := Lexer.exists_ahead hne
  obtain ⟨ds, hds⟩ := y.exists_runes ha
  have hrunes : (Text.ofReads reads').runes =
      ((Text.ofReads [.bytes front]).runes ++ y.lexeme.runes) ++
        (' ' :: (pieces more 0).map Piece.rune) := by
    have hblank : " ".toUTF8 = [' '].utf8Encode := String.utf8Encode_toList.symm
    rw [hblank, y.toUTF8_next, ByteArray.append_assoc (a := front), ← List.utf8Encode_append, hds,
      List.cons_append, ByteArray.append_assoc] at hr'
    rw [Text.runes_append (Lexer.ne_of_beginsToken hc (by decide +kernel)) hr', hds]
    simp
  have hfront : x.rest =
      ((Text.ofReads [.bytes front]).runes ++ y.lexeme.runes) ++ y.next.rest := by
    rw [hr, ← y.lexeme_append_rest, List.append_assoc]
  have hrest : (x.nextBy (n + 1)).rest = [] ++ y.next.rest := by
    rw [hnext]
    rfl
  exact (mirrors_blank hx rfl hn' hfront hrunes hrest).2.2

end Parser

/-- What stands before the token that an error is about goes on, behind a blank, to a text
that is accepted; with that token no text does, and the error is the same for all. -/
theorem File.ofReads_viable {path : String} {bytes : ByteArray} {reads : List Read}
    {what : Expectation} {found : Token} {loc : Location} {log : List Diagnostic}
    (h : Delivers reads bytes)
    (he : File.ofReads path reads = (.error (.expected what found loc), log)) :
    ∃ front back, bytes = front ++ found.lexeme.toUTF8 ++ back ∧
      (found.kind = .eof → bytes = front) ∧
      loc = .ofPosition path (Position.start.afterAll (Text.ofReads [.bytes front]).runes) ∧
      (∃ more : String, ∀ reads', Delivers reads' (front ++ " ".toUTF8 ++ more.toUTF8) →
        ∃ f log', File.ofReads path reads' = (.ok f, log')) ∧
      (found.kind ≠ .eof → ∀ more reads',
        Delivers reads' (front ++ found.lexeme.toUTF8 ++ " ".toUTF8 ++ more) →
        ∃ log', File.ofReads path reads' = (.error (.expected what found loc), log')) := by
  cases hd : Parse.many Parse.decl? (.ofReads path reads) with
  | ok ds t =>
    rw [Parse.ofReads_ok hd] at he
    cases he
  | error e t =>
    rw [Parse.ofReads_error hd] at he
    cases he
    obtain ⟨hblames, n, ⟨rfl, hleft⟩, hlocal⟩ := (Parse.local_decls (f := id)).error hd
    obtain ⟨rfl, rfl⟩ := hblames _ _ _ rfl
    have hn : n ≤ (Parser.ofReads path reads).left := by omega
    obtain ⟨m, ts, ⟨-, hleft'⟩, hts, hmends⟩ := Parse.mends_decls.mend hd
    obtain rfl : n = m := by omega
    generalize hx : Lexer.ofText (.ofReads reads) = x
    have htokens : (Parser.ofReads path reads).tokens = .ofLexer x := hx ▸ rfl
    have hstands : (x.nextBy n).StandsIn (.ofReads reads) := by
      rw [← hx]
      exact (Lexer.standsIn_ofText _).nextBy n
    have hcurrent := Parser.current_ofLexer htokens hn
    obtain ⟨front, back, hbytes, hend, hpos, hr⟩ := hstands.exists_front h
    have hrest : x.rest = (Text.ofReads [.bytes front]).runes ++ (x.nextBy n).ahead := by
      rw [← hr, ← hx]
      rfl
    rw [hcurrent]
    refine ⟨front, back, hbytes, hend, ?_, ⟨" ".intercalate (ts.map (·.lexeme)), ?_⟩, ?_⟩
    · unfold Parser.here
      rw [hcurrent, hpos, Parser.path_passBy]
      rfl
    · intro reads' hr'
      obtain ⟨hmirrors, hlength, hfaces⟩ := Parser.faces_words hx hn hts hrest hr'
      obtain ⟨-, ds, hds⟩ := hmends _ hmirrors hfaces
        (Parser.kind_passBy_left (Nat.le_of_eq hlength.symm))
      exact ⟨_, _, Parse.ofReads_ok hds⟩
    · intro hne more reads' hr'
      have hd' := hlocal _ (Parser.mirrors_more hx hn hne hrest hr')
      rw [SyntaxError.relocate_id, hcurrent] at hd'
      exact ⟨_, Parse.ofReads_error hd'⟩

/-- A brace that is found in two parentheses. -/
theorem File.ofReads_viable_brace : ∃ log front back,
    File.ofReads "" [.bytes "f = (g\n  (x \x7d".toUTF8] =
      (.error (.expected (.token .parenRight) ⟨.braceRight, "\x7d"⟩ ⟨"", 2, 6⟩), log) ∧
    "f = (g\n  (x \x7d".toUTF8 = front ++ "\x7d".toUTF8 ++ back ∧
    ⟨"", 2, 6⟩ =
      Location.ofPosition "" (Position.start.afterAll (Text.ofReads [.bytes front]).runes) ∧
    (∃ more : String, ∀ reads, Delivers reads (front ++ " ".toUTF8 ++ more.toUTF8) →
      ∃ f log', File.ofReads "" reads = (.ok f, log')) ∧
    ∀ more reads, Delivers reads (front ++ "\x7d".toUTF8 ++ " ".toUTF8 ++ more) →
      ∃ log', File.ofReads "" reads =
        (.error (.expected (.token .parenRight) ⟨.braceRight, "\x7d"⟩ ⟨"", 2, 6⟩), log') := by
  have herror : (File.ofReads "" [.bytes "f = (g\n  (x \x7d".toUTF8]).1 =
      .error (.expected (.token .parenRight) ⟨.braceRight, "\x7d"⟩ ⟨"", 2, 6⟩) :=
    File.error?_eq_some.1 (by decide +kernel)
  obtain ⟨front, back, hbytes, -, hloc, hviable, hsame⟩ :=
    File.ofReads_viable (.single _) (Prod.ext herror rfl)
  exact ⟨_, front, back, Prod.ext herror rfl, hbytes, hloc, hviable, hsame (by decide)⟩

end FrontEnd
