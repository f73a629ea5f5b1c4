import FrontEnd.Proofs.Grammar.Derivation
import FrontEnd.Proofs.Lexing.Sharing
import FrontEnd.Proofs.Literal.Conversion

/-!
# Literals among tokens

A token of the kind of an integer or a float is a numeral, and its fault is among the
reports that come with it.  So a literal that the converters call malformed has been
reported, and for more than its separators.
-/

namespace FrontEnd

namespace Numeral

theorem kind_eq_integer {n : Numeral} (h : n.kind = .integer) : n.isInteger = true := by
  unfold kind at h
  split at h
  · cases h
  split at h
  · assumption
  · cases h

theorem kind_eq_float {n : Numeral} (h : n.kind = .float) :
    n.imaginary = false ∧ n.isInteger = false := by
  unfold kind at h
  split at h
  · cases h
  next hi =>
  split at h
  · cases h
  next hn => exact ⟨by simpa using hi, by simpa using hn⟩

end Numeral

theorem Lexeme.scan_of_literal {c : Char} {cs : List Char} (hc : beginsToken c = true)
    (hk : (scan c cs).kind = .integer ∨ (scan c cs).kind = .float) :
    c.isDigit = true ∧ scan c cs = number (c :: cs) := by
  rcases scan_cases hc cs with ⟨-, hs⟩ | ⟨hd, hs⟩ | ⟨k, hsingle, hs⟩ | ⟨-, hs⟩
  · have hkind : (scan c cs).kind = wordKind (c :: cs.takeWhile continuesIdent) := by
      rw [hs]
      rfl
    rw [hkind] at hk
    rcases wordKind_cases (c :: cs.takeWhile continuesIdent) with ⟨h, -⟩ | ⟨h, -⟩ | ⟨h, -⟩ | h <;>
      simp [h] at hk
  · exact ⟨hd, hs⟩
  · have hkind : (scan c cs).kind = k := by rw [hs]
    rw [hkind] at hk
    unfold single? at hsingle
    split at hsingle <;> cases hsingle <;> simp at hk
  · have hkind : (scan c cs).kind = symbolKind (c :: cs.takeWhile isSymbol) := by
      rw [hs]
      rfl
    rw [hkind] at hk
    rcases symbolKind_cases (c :: cs.takeWhile isSymbol) with ⟨h, -⟩ | ⟨h, -⟩ | ⟨h, -⟩ | h <;>
      simp [h] at hk

theorem Lexer.mem_reports_of_flaw {x : Lexer} {f : Flaw} (h : f ∈ x.lexeme.flaw) :
    ⟨x.next.current.pos.right f.offset, f.problem⟩ ∈ x.next.current.reports := by
  have hflaw : (x.passed + x.gap.length + f.seen,
      (⟨x.next.current.pos.right f.offset, f.problem⟩ : Diagnostic)) ∈ x.flaws :=
    List.mem_map.2 ⟨f, Option.mem_toList.2 h, rfl⟩
  rw [x.reports_next]
  exact List.mem_map.2 ⟨_, List.mem_merge_right _ (List.mem_append_right _ hflaw), rfl⟩

namespace Entry

/-- The token is the numeral `n`, and what is wrong with that is reported. -/
structure Writes (e : Entry) (n : Numeral) : Prop where
  formed : n.Formed
  kind : e.token.kind = n.kind
  lexeme : e.token.lexeme = String.ofList n.text
  reported : ∀ f ∈ n.fault?, ⟨e.pos.right f.offset, .numeral f.defect⟩ ∈ e.reports

/-- Whether the token is a literal without a value for want of a right text. -/
def IsMalformed (e : Entry) : Prop :=
  (e.Is .integer ∧ Literal.integerValue e.token.lexeme = .error .malformed) ∨
    (e.Is .float ∧ Literal.floatValue e.token.lexeme = .error .malformed)

theorem Writes.misshape {e : Entry} {n : Numeral} (h : e.Writes n) (hm : e.IsMalformed) :
    n.misshape? ≠ none := by
  intro hnone
  rcases hm with ⟨hk, hv⟩ | ⟨hk, hv⟩
  · have hi := Numeral.kind_eq_integer (h.kind.symm.trans hk)
    rw [h.lexeme] at hv
    exact Literal.integerValue_ne_malformed h.formed hi hnone hv
  · obtain ⟨hi, hn⟩ := Numeral.kind_eq_float (h.kind.symm.trans hk)
    rw [h.lexeme] at hv
    exact Literal.floatValue_ne_malformed h.formed hi hn hnone hv

/-- A malformed literal has been reported, within it or just behind it. -/
theorem Writes.complaint {e : Entry} {n : Numeral} (h : e.Writes n) (hm : e.IsMalformed) :
    ∃ defect offset, ⟨e.pos.right offset, .numeral defect⟩ ∈ e.reports ∧ defect ≠ .separator ∧
      offset ≤ e.token.lexeme.length := by
  obtain ⟨f, hf⟩ := Option.ne_none_iff_exists'.1 (h.misshape hm)
  obtain ⟨hdefect, hoffset⟩ := Numeral.misshape?_spec hf
  have hfault : f ∈ n.fault? := by
    rw [n.fault?_eq, hf]
    rfl
  refine ⟨f.defect, f.offset, h.reported f hfault, hdefect, ?_⟩
  rw [h.lexeme, String.length_ofList]
  exact hoffset

end Entry

namespace Lexer

variable {x : Lexer} {c : Char} {cs : List Char}

theorem number_of_literal
    (hk : x.next.current.Is .integer ∨ x.next.current.Is .float) :
    ∃ c cs, c.isDigit = true ∧ x.lexeme = .number (c :: cs) := by
  have hne : x.next.current.token.kind ≠ .eof := by
    intro he
    rw [Entry.Is, Entry.Is, he] at hk
    rcases hk with hk | hk <;> cases hk
  obtain ⟨c, cs, ha, hc⟩ := exists_ahead hne
  have hlex := lexeme_eq_scan ha
  have hkind : x.next.current.token.kind = (Lexeme.scan c cs).kind := by
    rw [x.token_next, hlex]
    rfl
  rw [Entry.Is, Entry.Is, hkind] at hk
  obtain ⟨hd, hscan⟩ := Lexeme.scan_of_literal hc hk
  exact ⟨c, cs, hd, hlex.trans hscan⟩

theorem writes_next (hc : c.isDigit = true) (hlex : x.lexeme = .number (c :: cs)) :
    x.next.current.Writes (Numeral.read (c :: cs)).1 := by
  refine ⟨Numeral.formed_read hc cs, ?_, ?_, fun f hf => ?_⟩
  · rw [x.token_next, hlex]
    rfl
  · rw [x.token_next, hlex]
    rfl
  · have hflaw : (⟨.numeral f.defect, f.offset, f.seen⟩ : Flaw) ∈ x.lexeme.flaw := by
      rw [hlex]
      exact Option.map_eq_some_iff.2 ⟨f, hf, rfl⟩
    exact mem_reports_of_flaw hflaw

end Lexer

theorem Tokens.exists_numeral (x : Lexer) : ∀ e ∈ (ofLexer x).entries,
    e.Is .integer ∨ e.Is .float → ∃ n, e.Writes n := by
  intro e he hk
  obtain ⟨i, rfl⟩ := exists_nextBy x e he
  obtain ⟨c, cs, hc, hlex⟩ := Lexer.number_of_literal hk
  exact ⟨_, Lexer.writes_next hc hlex⟩

end FrontEnd
