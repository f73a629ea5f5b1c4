import FrontEnd.Proofs.Lexing.Sharing
import FrontEnd.Proofs.Lexing.Words

/-!
# A text in parentheses

A parenthesis in front of a text moves the runes of its first line one column on, and all
tokens stand behind one open parenthesis more.  A closing parenthesis at its end puts an end
to the last token.  Newlines are no tokens within parentheses, so the tokens between the two
parentheses are those of the text if it has no separators and closes what it opens.
-/

namespace FrontEnd

namespace Position

def inside (p : Position) : Position :=
  if p.line = 1 then p.right 1 else p

theorem line_le_after (p : Position) (c : Char) : p.line ≤ (p.after c).line := by
  by_cases hc : c = '\n'
  · rw [hc, after_newline]
    exact Nat.le_succ p.line
  · rw [after_of_ne hc]
    exact Nat.le_refl p.line

theorem line_le_afterAll (p : Position) (cs : List Char) : p.line ≤ (p.afterAll cs).line := by
  induction cs generalizing p with
  | nil => exact Nat.le_refl p.line
  | cons c cs ih => exact Nat.le_trans (p.line_le_after c) (ih (p.after c))

theorem inside_after {p : Position} (h : 1 ≤ p.line) (c : Char) :
    (p.after c).inside = p.inside.after c := by
  have hline : p.inside.line = p.line := by
    unfold inside
    split <;> rfl
  by_cases hc : c = '\n'
  · have hne : ¬ p.line + 1 = 1 := by omega
    rw [hc, after_newline, after_newline, inside, if_neg hne, hline]
  · rw [after_of_ne hc, after_of_ne hc]
    unfold inside right
    by_cases hp : p.line = 1
    · simp [hp]
    · simp [hp]

theorem inside_afterAll {p : Position} (h : 1 ≤ p.line) (cs : List Char) :
    (p.afterAll cs).inside = p.inside.afterAll cs := by
  induction cs generalizing p with
  | nil => rfl
  | cons c cs ih =>
    rw [afterAll_cons, afterAll_cons, ih (Nat.le_trans h (p.line_le_after c)), inside_after h]

end Position

namespace Lexer

/-- `x'` stands where `x` does, but within one more pair of parentheses. -/
structure Encloses (x x' : Lexer) : Prop where
  depth : x'.current.depth = x.current.depth + 1
  line : 1 ≤ x.pos.line
  pos : x'.pos = x.pos.inside
  rest : x'.rest = x.rest ++ [')']

namespace Encloses

variable {x x' : Lexer}

theorem keeps (h : Encloses x x') : x'.current.keepsNewline = false := by
  unfold Entry.keepsNewline
  rw [h.depth]
  simp

/-- The end of a token is seen at the closing parenthesis as well as at the end of the text. -/
theorem break_right : Break [')'] := by
  rintro c ⟨⟩
  rfl

/-- What is in no gap where newlines are tokens is in none where they are not. -/
theorem inGap_mono {keep : Bool} {c : Char} (h : inGap keep c = true) : inGap false c = true := by
  simp only [inGap, Bool.not_false, Bool.and_true, Bool.or_eq_true, Bool.and_eq_true] at h ⊢
  exact h.imp_left (Or.imp_right And.left)

/-- The first rune of a token that is no separator is no newline. -/
theorem ne_newline {c : Char} {cs : List Char} (ha : x.ahead = c :: cs)
    (hsemi : x.next.current.token.kind ≠ .semi) : c ≠ '\n' := by
  rintro rfl
  refine hsemi ?_
  rw [x.token_next, lexeme_eq_scan ha]
  rfl

/-- A token of the text is one within the parentheses. -/
theorem next (h : Encloses x x') (heof : x.next.current.token.kind ≠ .eof)
    (hsemi : x.next.current.token.kind ≠ .semi)
    (hright : x.next.current.token.kind = .parenRight → 0 < x.current.depth) :
    x'.next.current.token = x.next.current.token ∧
      x'.next.current.pos = x.next.current.pos.inside ∧ Encloses x.next x'.next := by
  obtain ⟨c, cs, ha, hc⟩ := exists_ahead heof
  have hrest' : x'.rest = x.gap ++ (c :: cs ++ [')']) := by
    rw [h.rest, ← x.gap_append_ahead, ha, List.append_assoc]
  have hgap' : ∀ d ∈ x.gap, inGap x'.current.keepsNewline d = true := by
    intro d hd
    rw [h.keeps]
    exact inGap_mono (x.inGap_of_mem_gap hd)
  have hhead' : ∀ d, (c :: cs ++ [')']).head? = some d →
      inGap x'.current.keepsNewline d = false := by
    rintro d ⟨⟩
    exact inGap_of_beginsToken _ hc (ne_newline ha hsemi)
  obtain ⟨hgap, hahead⟩ := gap_eq hrest' hgap' hhead'
  have hlex : x'.lexeme = x.lexeme := by
    rw [lexeme_eq_scan hahead, lexeme_eq_scan ha]
    exact Lexeme.scan_append break_right c cs
  have htoken : x'.next.current.token = x.next.current.token := by
    rw [x'.token_next, x.token_next, hlex]
  have hpos : x'.next.current.pos = x.next.current.pos.inside := by
    rw [x'.pos_current_next, x.pos_current_next, hgap, h.pos, Position.inside_afterAll h.line]
  have hline : 1 ≤ x.next.current.pos.line := by
    rw [x.pos_current_next]
    exact Nat.le_trans h.line (x.pos.line_le_afterAll _)
  refine ⟨htoken, hpos, ?_, ?_, ?_, ?_⟩
  · rw [x'.depth_next, x.depth_next, hlex, h.depth]
    have hk : x.lexeme.kind = x.next.current.token.kind := rfl
    rw [hk]
    cases hkind : x.next.current.token.kind with
    | parenRight =>
      have hpositive := hright hkind
      show x.current.depth + 1 - 1 = x.current.depth - 1 + 1
      omega
    | _ => rfl
  · rw [x.pos_next]
    exact Nat.le_trans hline (Position.line_le_afterAll _ _)
  · rw [x'.pos_next, x.pos_next, hpos, hlex, Position.inside_afterAll hline]
  · have happ := x'.lexeme_append_rest
    rw [hahead, hlex, ← ha, ← x.lexeme_append_rest, List.append_assoc] at happ
    exact List.append_cancel_left happ

/-- Where the text ends stands the closing parenthesis, and nothing behind it. -/
theorem close (h : Encloses x x') (heof : x.next.current.token.kind = .eof) :
    x'.next.current.token = ⟨.parenRight, ")"⟩ ∧ x'.next.next.current.token.kind = .eof := by
  have ha : x.ahead = [] := x.kind_next_eq_eof.1 heof
  have hrest : x.rest = x.gap := by
    rw [← x.gap_append_ahead, ha, List.append_nil]
  have hgap' : ∀ d ∈ x.gap, inGap x'.current.keepsNewline d = true := by
    intro d hd
    rw [h.keeps]
    exact inGap_mono (x.inGap_of_mem_gap hd)
  have hhead' : ∀ d, [')'].head? = some d → inGap x'.current.keepsNewline d = false := by
    rintro d ⟨⟩
    exact inGap_of_beginsToken _ (by decide) (by decide)
  obtain ⟨-, hahead⟩ := gap_eq (h.rest.trans (by rw [hrest])) hgap' hhead'
  have hlex : x'.lexeme = .scan ')' [] := lexeme_eq_scan hahead
  have hend : x'.next.rest = [] := by
    have happ := x'.lexeme_append_rest
    rw [hahead, hlex] at happ
    exact (List.cons.inj happ).2
  refine ⟨?_, ?_⟩
  · rw [x'.token_next, hlex]
    rfl
  · refine x'.next.kind_next_eq_eof.2 ?_
    unfold ahead
    rw [hend]
    rfl

end Encloses
end Lexer

/-- Behind `depth` open parentheses no token of `es` closes one that is not open, and none is
a separator. -/
def Encloseable (depth : Nat) : List Entry → Prop
  | [] => True
  | e :: es => e.token.kind ≠ .semi ∧ (e.token.kind = .parenRight → 0 < depth) ∧
      Encloseable (depthAfter depth e.token.kind) es

namespace Tokens

open Lexer

/-- The tokens within the parentheses are those of the text, and behind them stands the
closing one. -/
theorem enclosed (x : Lexer) : ∀ x', Encloses x x' →
    Encloseable x.current.depth (ofLexer x).entries →
    ∃ es r, (ofLexer x').entries = es ++ [r] ∧ r.token.kind = .parenRight ∧
      es.map (·.token) = (ofLexer x).entries.map (·.token) ∧
      es.map (·.pos) = (ofLexer x).entries.map (·.pos.inside) := by
  induction x using ofLexer.induct with
  | case1 x y he =>
    intro x' h hx
    obtain ⟨htoken, hend⟩ := h.close he
    have hk : x'.next.current.token.kind = .parenRight := congrArg Token.kind htoken
    have hne : x'.next.current.token.kind ≠ .eof := by
      rw [hk]
      decide
    refine ⟨[], x'.next.current, ?_, hk, ?_⟩
    · rw [(ofLexer_more hne).1, (ofLexer_end hend).1]
      rfl
    · rw [(ofLexer_end he).1]
      exact ⟨rfl, rfl⟩
  | case2 x y he ih =>
    intro x' h hx
    rw [(ofLexer_more he).1] at hx ⊢
    obtain ⟨hsemi, hright, hrest⟩ := hx
    obtain ⟨htoken, hpos, hnext⟩ := h.next he hsemi hright
    have hne : x'.next.current.token.kind ≠ .eof := by
      rw [htoken]
      exact he
    obtain ⟨es, r, hes, hr, htokens, hposs⟩ := ih x'.next hnext hrest
    refine ⟨x'.next.current :: es, r, ?_, hr, ?_, ?_⟩
    · rw [(ofLexer_more hne).1, hes]
      rfl
    · rw [List.map_cons, List.map_cons, htoken, htokens]
    · rw [List.map_cons, List.map_cons, hpos, hposs]

end Tokens

namespace Lexer

theorem toList_parens (s : String) : ("(" ++ s ++ ")").toList = '(' :: (s.toList ++ [')']) := by
  simp

/-- The opening parenthesis is the first token, and behind it the text begins. -/
theorem encloses_ofReads {s : String} {reads reads' : List Read} (h : Delivers reads s.toUTF8)
    (h' : Delivers reads' ("(" ++ s ++ ")").toUTF8)
    (hs : s.toList.head? ≠ some Source.byteOrderMark) :
    (ofText (.ofReads reads')).next.current.token = ⟨.parenLeft, "("⟩ ∧
      Encloses (ofText (.ofReads reads)) (ofText (.ofReads reads')).next := by
  have hrest : (ofText (.ofReads reads)).rest = s.toList := by
    show (Text.ofReads reads).runes = _
    rw [Text.runes_ofReads h, if_neg hs]
  have hrest' : (ofText (.ofReads reads')).rest = [] ++ '(' :: (s.toList ++ [')']) := by
    show (Text.ofReads reads').runes = _
    rw [Text.runes_ofReads h', toList_parens, if_neg (by simp [Source.byteOrderMark])]
    rfl
  have hhead : ∀ d, ('(' :: (s.toList ++ [')'])).head? = some d →
      inGap (ofText (.ofReads reads')).current.keepsNewline d = false := by
    rintro d ⟨⟩
    exact inGap_of_beginsToken _ (by decide) (by decide)
  obtain ⟨hgap, hahead⟩ := gap_eq hrest' (List.forall_mem_nil _) hhead
  have hlex : (ofText (.ofReads reads')).lexeme = .scan '(' (s.toList ++ [')']) :=
    lexeme_eq_scan hahead
  have hsingle : Lexeme.scan '(' (s.toList ++ [')']) = ⟨.parenLeft, ['('], none⟩ := rfl
  rw [hsingle] at hlex
  refine ⟨?_, ?_, Nat.le_refl 1, ?_, ?_⟩
  · rw [token_next, hlex]
    rfl
  · rw [depth_next, hlex]
    rfl
  · rw [pos_next, pos_current_next, hgap, hlex]
    rfl
  · have happ := (ofText (.ofReads reads')).lexeme_append_rest
    rw [hahead, hlex] at happ
    rw [hrest]
    exact (List.cons.inj happ).2

end Lexer
end FrontEnd
