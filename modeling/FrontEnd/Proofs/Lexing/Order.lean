import FrontEnd.Proofs.Lexing.Step

/-!
# Tokens in order

Positions are ordered as their runes are in the text.  The tokens of a text stand one
behind the other, all of them before its end, and at the position of each the text says
what the token says.
-/

namespace FrontEnd

namespace Position

/-- `p` is above `q`, or in front of it on the same line. -/
instance : LT Position :=
  ⟨fun p q => p.line < q.line ∨ p.line = q.line ∧ p.col < q.col⟩

instance : LE Position :=
  ⟨fun p q => p.line < q.line ∨ p.line = q.line ∧ p.col ≤ q.col⟩

variable {p q r : Position}

theorem lt_iff : p < q ↔ p.line < q.line ∨ p.line = q.line ∧ p.col < q.col :=
  Iff.rfl

theorem le_iff : p ≤ q ↔ p.line < q.line ∨ p.line = q.line ∧ p.col ≤ q.col :=
  Iff.rfl

instance (p q : Position) : Decidable (p < q) :=
  decidable_of_iff _ lt_iff.symm

instance (p q : Position) : Decidable (p ≤ q) :=
  decidable_of_iff _ le_iff.symm

theorem le_refl (p : Position) : p ≤ p := by
  simp [le_iff]

theorem ne_of_lt (h : p < q) : p ≠ q := by
  rintro rfl
  rw [lt_iff] at h
  omega

theorem le_of_lt (h : p < q) : p ≤ q := by
  rw [lt_iff] at h
  rw [le_iff]
  omega

theorem le_trans (h : p ≤ q) (h' : q ≤ r) : p ≤ r := by
  rw [le_iff] at h h' ⊢
  omega

theorem lt_of_lt_of_le (h : p < q) (h' : q ≤ r) : p < r := by
  rw [lt_iff] at h ⊢
  rw [le_iff] at h'
  omega

theorem lt_after (p : Position) (c : Char) : p < p.after c := by
  rw [lt_iff]
  unfold after
  split <;> simp

theorem le_afterAll (p : Position) (cs : List Char) : p ≤ p.afterAll cs := by
  induction cs generalizing p with
  | nil => exact le_refl p
  | cons c cs ih => exact le_trans (le_of_lt (lt_after p c)) (ih _)

theorem lt_afterAll (p : Position) {cs : List Char} (h : cs ≠ []) : p < p.afterAll cs := by
  cases cs with
  | nil => exact absurd rfl h
  | cons c cs => exact lt_of_lt_of_le (lt_after p c) (le_afterAll _ cs)

theorem eq_nil_of_afterAll_eq {cs : List Char} (h : p.afterAll cs = p) : cs = [] := by
  by_contra hne
  have hlt := lt_afterAll p hne
  rw [h, lt_iff] at hlt
  omega

/-- A position says which runes of a text are before it. -/
theorem eq_of_afterAll_eq {as bs cs ds : List Char} (h : as ++ cs = bs ++ ds)
    (hp : p.afterAll as = p.afterAll bs) : as = bs ∧ cs = ds := by
  have hfront : as = bs := by
    rcases List.append_eq_append_iff.1 h with ⟨ws, hbs, -⟩ | ⟨ws, has, -⟩
    · rw [hbs, afterAll_append] at hp
      rw [hbs, eq_nil_of_afterAll_eq hp.symm, List.append_nil]
    · rw [has, afterAll_append] at hp
      rw [has, eq_nil_of_afterAll_eq hp, List.append_nil]
  rw [hfront] at h
  exact ⟨hfront, List.append_cancel_left h⟩

end Position

def InOrder (es : List Entry) : Prop :=
  es.Pairwise (·.pos < ·.pos)

theorem InOrder.eq_of_pos {es : List Entry} (h : InOrder es) {a b : Entry} (ha : a ∈ es)
    (hb : b ∈ es) (hpos : a.pos = b.pos) : a = b := by
  induction es with
  | nil => cases ha
  | cons e es ih =>
    obtain ⟨hfirst, hrest⟩ := List.pairwise_cons.1 h
    rcases List.mem_cons.1 ha with rfl | ha' <;> rcases List.mem_cons.1 hb with rfl | hb'
    · rfl
    · exact absurd hpos (Position.ne_of_lt (hfirst b hb'))
    · exact absurd hpos.symm (Position.ne_of_lt (hfirst a ha'))
    · exact ih hrest ha' hb'

namespace Text

def Shows (t : Text) (p : Position) (word : String) : Prop :=
  ∃ before behind, t.runes = before ++ (word.toList ++ behind) ∧
    Position.start.afterAll before = p

end Text

namespace Lexer

theorem pos_le_next (x : Lexer) : x.pos ≤ x.next.current.pos :=
  Position.le_afterAll _ _

theorem pos_next_lt {x : Lexer} (h : x.next.current.token.kind ≠ .eof) :
    x.next.current.pos < x.next.pos := by
  obtain ⟨c, cs, ha, -⟩ := exists_ahead h
  rw [x.pos_next, lexeme_eq_scan ha]
  exact Position.lt_afterAll _ (Lexeme.scan_runes_ne_nil c cs)

def StandsIn (x : Lexer) (t : Text) : Prop :=
  ∃ before, t.runes = before ++ x.rest ∧ Position.start.afterAll before = x.pos

variable {x : Lexer} {t : Text}

theorem standsIn_ofText (t : Text) : (ofText t).StandsIn t :=
  ⟨[], rfl, rfl⟩

theorem StandsIn.shows (h : x.StandsIn t) :
    t.Shows x.next.current.pos x.next.current.token.lexeme := by
  obtain ⟨before, hr, hp⟩ := h
  refine ⟨before ++ x.gap, x.next.rest, ?_, ?_⟩
  · rw [hr, x.rest_eq, x.toList_lexeme_next, List.append_assoc]
  · rw [Position.afterAll_append, hp]
    rfl

theorem StandsIn.next (h : x.StandsIn t) : x.next.StandsIn t := by
  obtain ⟨before, hr, hp⟩ := h
  refine ⟨before ++ (x.gap ++ x.lexeme.runes), ?_, ?_⟩
  · rw [hr, x.rest_eq]
    simp only [List.append_assoc]
  · rw [Position.afterAll_append, hp, Position.afterAll_append]
    rfl

theorem StandsIn.nextBy (h : x.StandsIn t) (n : Nat) : (x.nextBy n).StandsIn t := by
  induction n generalizing x with
  | zero => exact h
  | succ n ih => exact ih h.next

end Lexer

namespace Tokens

theorem pos_le_last (x : Lexer) : x.pos ≤ (ofLexer x).last.pos := by
  induction x using ofLexer.induct with
  | case1 x y he =>
    rw [(ofLexer_end he).2]
    exact x.pos_le_next
  | case2 x y he ih =>
    rw [(ofLexer_more he).2]
    exact Position.le_trans x.pos_le_next
      (Position.le_trans (Position.le_of_lt (Lexer.pos_next_lt he)) ih)

theorem pos_bounds (x : Lexer) :
    ∀ e ∈ (ofLexer x).entries, x.pos ≤ e.pos ∧ e.pos < (ofLexer x).last.pos := by
  induction x using ofLexer.induct with
  | case1 x y he => simp [(ofLexer_end he).1]
  | case2 x y he ih =>
    obtain ⟨hes, hlast⟩ := ofLexer_more he
    have hlt := Lexer.pos_next_lt he
    rw [hes, hlast]
    intro e hm
    rcases List.mem_cons.1 hm with rfl | hm
    · exact ⟨x.pos_le_next, Position.lt_of_lt_of_le hlt (pos_le_last _)⟩
    · obtain ⟨hfirst, hend⟩ := ih e hm
      exact ⟨Position.le_trans x.pos_le_next (Position.le_trans (Position.le_of_lt hlt) hfirst),
        hend⟩

theorem inOrder (x : Lexer) : InOrder (ofLexer x).entries := by
  induction x using ofLexer.induct with
  | case1 x y he => simp [InOrder, (ofLexer_end he).1]
  | case2 x y he ih =>
    have hlt := Lexer.pos_next_lt he
    rw [(ofLexer_more he).1]
    refine List.pairwise_cons.2 ⟨fun e hm => ?_, ih⟩
    exact Position.lt_of_lt_of_le hlt (pos_bounds x.next e hm).1

theorem shows {x : Lexer} {t : Text} (h : x.StandsIn t) :
    ∀ e ∈ (ofLexer x).entries, t.Shows e.pos e.token.lexeme := by
  induction x using ofLexer.induct with
  | case1 x y he => simp [(ofLexer_end he).1]
  | case2 x y he ih =>
    rw [(ofLexer_more he).1]
    intro e hm
    rcases List.mem_cons.1 hm with rfl | hm
    · exact h.shows
    · exact ih h.next e hm

end Tokens
end FrontEnd
