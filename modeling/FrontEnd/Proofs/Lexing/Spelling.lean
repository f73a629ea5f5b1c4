import FrontEnd.Proofs.Lexing.Step

/-!
# Kinds and spellings

The kind of a scanned token goes with its text: words and signs of one spelling have it,
an operator begins with a rune of operators and an identifier does not.
-/

namespace FrontEnd

namespace TokenKind

def spelling? : TokenKind → Option String
  | typeWord => some "type"
  | sealWord => some "seal"
  | braceLeft => some "\x7b"
  | braceRight => some "\x7d"
  | colon => some ":"
  | assign => some "="
  | arrow => some "->"
  | _ => none

def ofName (value : String) : TokenKind :=
  if value.toList.head?.any isSymbol then symbol else ident

end TokenKind

/-- A token whose kind goes with its spelling, as that of every scanned token does. -/
structure Token.Proper (t : Token) : Prop where
  spelled : ∀ s, t.kind.spelling? = some s → t.lexeme = s
  named : t.kind = .ident ∨ t.kind = .symbol → TokenKind.ofName t.lexeme = t.kind
  ne_minus : t.kind ≠ .minus

theorem beginsIdent_of_isSymbol {c : Char} (h : isSymbol c = true) : beginsIdent c = false := by
  have hall : "!#$%&*+./<=>?@\\^|-~:".toList.all (fun d => !beginsIdent d) = true := by decide
  have hc := List.all_eq_true.1 hall c (List.contains_iff_mem.1 h)
  simpa using hc

namespace Lexeme

theorem ofName_of_head {w : List Char} {c : Char} (hc : w.head? = some c) :
    TokenKind.ofName (String.ofList w) = if isSymbol c then .symbol else .ident := by
  unfold TokenKind.ofName
  rw [String.toList_ofList, hc]
  rfl

theorem proper_ident {c : Char} (h : beginsIdent c = true) (cs : List Char) :
    (ident c cs).token.Proper := by
  have hc : isSymbol c = false := by
    cases hs : isSymbol c with
    | false => rfl
    | true => rw [beginsIdent_of_isSymbol hs] at h; cases h
  have hn : TokenKind.ofName (ident c cs).token.lexeme = .ident := by
    refine (ofName_of_head (c := c) rfl).trans ?_
    rw [hc]
    rfl
  have hk : (ident c cs).token.kind = wordKind (c :: cs.takeWhile continuesIdent) := rfl
  have hw : (ident c cs).token.lexeme = String.ofList (c :: cs.takeWhile continuesIdent) := rfl
  rcases wordKind_cases (c :: cs.takeWhile continuesIdent) with
    ⟨hl, hr⟩ | ⟨hl, hr⟩ | ⟨hl, hr⟩ | hl <;>
    rw [hl] at hk
  · exact ⟨by simp [hk, TokenKind.spelling?], by simp [hk], by simp [hk]⟩
  · exact ⟨by simp [hk, TokenKind.spelling?, hw, hr], by simp [hk], by simp [hk]⟩
  · exact ⟨by simp [hk, TokenKind.spelling?, hw, hr], by simp [hk], by simp [hk]⟩
  · exact ⟨by simp [hk, TokenKind.spelling?], fun _ => hn.trans hk.symm, by simp [hk]⟩

theorem proper_symbol {c : Char} (h : isSymbol c = true) (cs : List Char) :
    (symbol c cs).token.Proper := by
  have hn : TokenKind.ofName (symbol c cs).token.lexeme = .symbol := by
    refine (ofName_of_head (c := c) rfl).trans ?_
    rw [h]
    rfl
  have hk : (symbol c cs).token.kind = symbolKind (c :: cs.takeWhile isSymbol) := rfl
  have hw : (symbol c cs).token.lexeme = String.ofList (c :: cs.takeWhile isSymbol) := rfl
  rcases symbolKind_cases (c :: cs.takeWhile isSymbol) with ⟨hl, hr⟩ | ⟨hl, hr⟩ | ⟨hl, hr⟩ | hl <;>
    rw [hl] at hk
  · exact ⟨by simp [hk, TokenKind.spelling?, hw, hr], by simp [hk], by simp [hk]⟩
  · exact ⟨by simp [hk, TokenKind.spelling?, hw, hr], by simp [hk], by simp [hk]⟩
  · exact ⟨by simp [hk, TokenKind.spelling?, hw, hr], by simp [hk], by simp [hk]⟩
  · exact ⟨by simp [hk, TokenKind.spelling?], fun _ => hn.trans hk.symm, by simp [hk]⟩

theorem proper_scan {c : Char} (h : beginsToken c = true) (cs : List Char) :
    (scan c cs).token.Proper := by
  rcases scan_cases h cs with ⟨hi, hs⟩ | ⟨-, hs⟩ | ⟨k, hk, hs⟩ | ⟨hi, hs⟩ <;> rw [hs]
  · exact proper_ident hi cs
  · have hk : (number (c :: cs)).token.kind = (Numeral.read (c :: cs)).1.kind := rfl
    rcases Numeral.kind_cases (Numeral.read (c :: cs)).1 with h | h | h <;>
    · rw [h] at hk
      exact ⟨by simp [hk, TokenKind.spelling?], by simp [hk], by simp [hk]⟩
  · unfold single? at hk
    split at hk <;> cases hk <;>
      exact ⟨by simp [token, TokenKind.spelling?], by simp [token], by simp [token]⟩
  · exact proper_symbol hi cs

end Lexeme

theorem Tokens.proper (x : Lexer) : ∀ e ∈ (ofLexer x).entries, e.token.Proper := by
  intro e hm
  obtain ⟨c, cs, hc, he⟩ := exists_scan x e hm
  rw [he]
  exact Lexeme.proper_scan hc cs

end FrontEnd
