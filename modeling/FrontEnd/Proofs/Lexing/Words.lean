import FrontEnd.Proofs.Lexing.Sharing
import FrontEnd.Proofs.Reading.Pieces

/-!
# Words

A token whose text is scanned as that token, and as nothing else, may be put between
blanks anywhere: blanks belong to no token, so what is scanned in front of one does not
depend on what is behind it.
-/

namespace FrontEnd

def Clear (cs : List Char) : Prop :=
  ∀ c, cs.head? = some c → isSpace c = true

theorem isSpace_cases {c : Char} (h : isSpace c = true) : c = ' ' ∨ c = '\t' ∨ c = '\r' := by
  simpa [isSpace, or_assoc] using h

theorem beginsToken_of_isSpace {c : Char} (h : isSpace c = true) : beginsToken c = false := by
  rcases isSpace_cases h with rfl | rfl | rfl <;> decide

theorem Clear.break {rest : List Char} (h : Clear rest) : Break rest := by
  intro c hc
  simp [breaks, h c hc]

namespace Token

/-- Whether a token is what is scanned where its text begins, and all of it. -/
def Scans (t : Token) : Prop :=
  ∃ c cs, t.lexeme.toList = c :: cs ∧ c ≠ '\n' ∧ beginsToken c = true ∧
    (Lexeme.scan c cs).token = t

/-- Whether the text of a token, with nothing around it, is that one token. -/
def Alone (t : Token) : Prop :=
  (Tokens.ofText (.ofReads [.bytes t.lexeme.toUTF8])).entries.map (·.token) = [t]

instance (t : Token) : Decidable t.Alone :=
  inferInstanceAs (Decidable (_ = _))

end Token

theorem inGap_of_isSpace (keep : Bool) {c : Char} (h : isSpace c = true) :
    inGap keep c = true := by
  simp [inGap, h]

theorem inGap_of_beginsToken (keep : Bool) {c : Char} (h : beginsToken c = true)
    (hc : c ≠ '\n') : inGap keep c = false := by
  have hs : isSpace c = false := by
    cases hs : isSpace c with
    | false => rfl
    | true => rw [beginsToken_of_isSpace hs] at h; cases h
  simp [inGap, isInvalid, hs, h, hc]

namespace Token

theorem Alone.scans {t : Token} (h : t.Alone) : t.Scans := by
  unfold Alone Tokens.ofText at h
  generalize hx : Lexer.ofText (.ofReads [.bytes t.lexeme.toUTF8]) = x at h
  have hrest : x.rest.length ≤ t.lexeme.toList.length := by
    have hr : x.rest = (Text.ofReads [.bytes t.lexeme.toUTF8]).runes := by
      rw [← hx]
      rfl
    rw [hr, Text.runes_ofReads (Delivers.single _)]
    split
    · rw [List.length_tail]
      omega
    · exact Nat.le_refl _
  have hkeep : x.current.keepsNewline = false := by
    rw [← hx]
    rfl
  by_cases he : x.next.current.token.kind = .eof
  · rw [(Tokens.ofLexer_end he).1] at h
    cases h
  · rw [(Tokens.ofLexer_more he).1] at h
    have ht : x.next.current.token = t := (List.cons.inj h).1
    obtain ⟨c, cs, ha, hc⟩ := Lexer.exists_ahead he
    have hlex := Lexer.lexeme_eq_scan ha
    rw [x.token_next, hlex] at ht
    have hrunes : t.lexeme.toList = (Lexeme.scan c cs).runes := by
      rw [← ht]
      exact String.toList_ofList
    -- The token leaves no room for a gap before it or for anything behind it.
    have hsplit := congrArg List.length x.rest_eq
    have hahead := x.lexeme_append_rest
    rw [hlex, ← hrunes] at hsplit hahead
    simp only [List.length_append] at hsplit
    have hnil : x.next.rest = [] := List.length_eq_zero_iff.1 (by omega)
    rw [hnil, List.append_nil, ha] at hahead
    refine ⟨c, cs, hahead, ?_, hc, ht⟩
    rintro rfl
    have hgap := List.head?_dropWhile_not (inGap x.current.keepsNewline) x.rest
    rw [show x.rest.dropWhile (inGap x.current.keepsNewline) = '\n' :: cs from ha, hkeep] at hgap
    simp [inGap] at hgap

end Token

namespace Token.Scans

variable {t : Token}

theorem kind_ne_eof (ht : t.Scans) : t.kind ≠ .eof := by
  obtain ⟨c, cs, -, -, hc, hscan⟩ := ht
  rw [← hscan]
  exact Lexeme.scan_kind_ne_eof hc cs

/-- With a gap before it and a clear place behind it, the text of a token is taken as that
token. -/
theorem step (ht : t.Scans) {x : Lexer} {gap rest : List Char}
    (hgap : ∀ c ∈ gap, inGap x.current.keepsNewline c = true) (hrest : Clear rest)
    (hx : x.rest = gap ++ (t.lexeme.toList ++ rest)) :
    x.gap = gap ∧ x.lexeme = .front t.lexeme.toList ∧ x.lexeme.token = t ∧ x.next.rest = rest := by
  obtain ⟨c, cs, htext, hne, hbegin, hscan⟩ := ht
  rw [htext, List.cons_append] at hx
  have hhead : ∀ d, (c :: (cs ++ rest)).head? = some d →
      inGap x.current.keepsNewline d = false := by
    rintro d ⟨⟩
    exact inGap_of_beginsToken _ hbegin hne
  obtain ⟨hg, ha⟩ := Lexer.gap_eq hx hgap hhead
  have hlex : x.lexeme = Lexeme.scan c cs :=
    (Lexer.lexeme_eq_scan ha).trans (Lexeme.scan_append hrest.break c cs)
  have hrunes : x.lexeme.runes = c :: cs := by
    rw [hlex, ← htext, ← hscan]
    exact String.toList_ofList.symm
  refine ⟨hg, by rw [hlex, htext]; rfl, by rw [hlex, hscan], ?_⟩
  have happ := x.lexeme_append_rest
  rw [hrunes, ha, ← List.cons_append] at happ
  exact List.append_cancel_left happ

end Token.Scans

/-- A text made up of tokens, with blanks between them, before and behind. -/
inductive Spaced : List Token → List Char → Prop where
  | nil {gap : List Char} (hg : ∀ c ∈ gap, isSpace c = true) : Spaced [] gap
  | cons {t : Token} {ts : List Token} {gap rest : List Char}
      (hg : ∀ c ∈ gap, isSpace c = true) (ht : t.Scans) (hc : Clear rest) (h : Spaced ts rest) :
    Spaced (t :: ts) (gap ++ (t.lexeme.toList ++ rest))

/-- The tokens of such a text are those it is made of, also behind a gap. -/
theorem Spaced.tokens {ts : List Token} {before cs : List Char} (h : Spaced ts cs) {x : Lexer}
    (hbefore : ∀ c ∈ before, inGap x.current.keepsNewline c = true) (hx : x.rest = before ++ cs) :
    (Tokens.ofLexer x).entries.map (·.token) = ts := by
  induction h generalizing x before with
  | @nil gap hg =>
    have ha : x.ahead = [] := by
      unfold Lexer.ahead
      rw [hx, List.dropWhile_eq_nil_iff]
      exact List.forall_mem_append.2 ⟨hbefore, fun c hc => inGap_of_isSpace _ (hg c hc)⟩
    rw [(Tokens.ofLexer_end (x.kind_next_eq_eof.2 ha)).1]
    rfl
  | @cons t ts gap rest hg ht hc h ih =>
    have hall : ∀ c ∈ before ++ gap, inGap x.current.keepsNewline c = true :=
      List.forall_mem_append.2 ⟨hbefore, fun c hc => inGap_of_isSpace _ (hg c hc)⟩
    obtain ⟨-, -, htoken, hnext⟩ := ht.step hall hc (by rw [hx, List.append_assoc])
    have he : x.next.current.token.kind ≠ .eof := by
      rw [x.token_next, htoken]
      exact ht.kind_ne_eof
    rw [(Tokens.ofLexer_more he).1, List.map_cons, ih (List.forall_mem_nil _) hnext, x.token_next,
      htoken]

theorem Spaced.blank {ts : List Token} {c : Char} {cs : List Char} (hc : isSpace c = true)
    (h : Spaced ts cs) : Spaced ts (c :: cs) := by
  cases h with
  | nil hg => exact .nil (List.forall_mem_cons.2 ⟨hc, hg⟩)
  | @cons t ts gap rest hg ht hr h =>
    have hall : ∀ d ∈ c :: gap, isSpace d = true := List.forall_mem_cons.2 ⟨hc, hg⟩
    have hcons := Spaced.cons hall ht hr h
    exact hcons

theorem Spaced.intercalate {ts : List Token} (h : ∀ t ∈ ts, t.Scans) :
    Spaced ts (" ".intercalate (ts.map (·.lexeme))).toList := by
  induction ts with
  | nil => exact .nil (List.forall_mem_nil _)
  | cons t ts ih =>
    obtain ⟨ht, hts⟩ := List.forall_mem_cons.1 h
    have hrest := ih hts
    cases ts with
    | nil =>
      have heq : (" ".intercalate ([t].map (·.lexeme))).toList = [] ++ (t.lexeme.toList ++ []) := by
        simp
      rw [heq]
      exact .cons (List.forall_mem_nil _) ht (fun c hc => by cases hc)
        (.nil (List.forall_mem_nil _))
    | cons u ts =>
      have heq : (" ".intercalate ((t :: u :: ts).map (·.lexeme))).toList =
          [] ++ (t.lexeme.toList ++
            ' ' :: (" ".intercalate ((u :: ts).map (·.lexeme))).toList) := by
        rw [List.map_cons, String.intercalate_cons_of_ne_nil (by simp)]
        simp
      rw [heq]
      refine .cons (List.forall_mem_nil _) ht ?_ (hrest.blank rfl)
      intro c hc
      cases hc
      rfl

theorem Spaced.head {ts : List Token} {cs : List Char} (h : Spaced ts cs) :
    cs.head? ≠ some Source.byteOrderMark := by
  have hspace : isSpace Source.byteOrderMark = false := by decide
  have hbegin : beginsToken Source.byteOrderMark = false := by decide +kernel
  intro hcs
  cases h with
  | nil hg =>
    rw [hg _ (List.mem_of_mem_head? hcs)] at hspace
    cases hspace
  | @cons t ts gap rest hg ht hr h =>
    obtain ⟨c, cs, htext, -, hc, -⟩ := ht
    cases gap with
    | nil =>
      rw [List.nil_append, htext] at hcs
      cases hcs
      rw [hc] at hbegin
      cases hbegin
    | cons b gap =>
      cases hcs
      rw [hg _ List.mem_cons_self] at hspace
      cases hspace

theorem Spaced.tokens_ofReads {ts : List Token} {reads : List Read} {text : String}
    (h : Spaced ts text.toList) (hr : Delivers reads text.toUTF8) :
    (Tokens.ofText (.ofReads reads)).entries.map (·.token) = ts := by
  refine h.tokens (List.forall_mem_nil _) ?_
  show (Text.ofReads reads).runes = text.toList
  rw [Text.runes_ofReads hr, if_neg h.head]

end FrontEnd
