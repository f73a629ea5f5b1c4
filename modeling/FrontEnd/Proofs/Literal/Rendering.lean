import FrontEnd.Proofs.Lexing.Spacing
import FrontEnd.Proofs.Literal.Digits

/-!
# Integers that are written down

An integer may be written in any base, with zeros and separators between its digits and its
letters in either case.  The scanner and the converter look for the lead of such a text each in
its own way, and both find the one it was written with: the text is one token without a fault,
and its value is the number again.
-/

namespace FrontEnd

/-- The runes `cs` write the digits `ds`, in either case, with at most one separator in front of
each. -/
inductive Spells : List Nat → List Char → Prop where
  | nil : Spells [] []
  | digit {d : Nat} {ds : List Nat} {c : Char} {cs : List Char}
    (hc : c = d.digitChar ∨ c = d.digitChar.toUpper) (h : Spells ds cs) :
    Spells (d :: ds) (c :: cs)
  | separator {d : Nat} {ds : List Nat} {c : Char} {cs : List Char}
    (hc : c = d.digitChar ∨ c = d.digitChar.toUpper) (h : Spells ds cs) :
    Spells (d :: ds) ('_' :: c :: cs)

/-- The literals for the number `n`: in base ten, in base eight behind a zero, and behind the
letter of a base.  There may be `k` zeros in front behind a lead. -/
inductive Renders (n : Nat) : List Char → Prop where
  | decimal {cs : List Char} (h : Spells (Nat.digits 10 n).reverse cs) (hn : n ≠ 0)
    (hs : cs.head? ≠ some '_') : Renders n cs
  | octal {cs : List Char} (k : Nat)
    (h : Spells (List.replicate k 0 ++ (Nat.digits 8 n).reverse) cs) : Renders n ('0' :: cs)
  | marked {b : Base} {l : Char} {cs : List Char} (hl : l ∈ b.letters.toList) (k : Nat)
    (h : Spells (List.replicate k 0 ++ (Nat.digits b.radix n).reverse) cs) (hne : cs ≠ []) :
    Renders n ('0' :: l :: cs)

namespace Base

variable {b : Base} {c : Char} {d : Nat}

theorem one_lt_radix (b : Base) : 1 < b.radix := by
  cases b <;> decide

theorem digit?_of_digitChar (hd : d < b.radix)
    (hc : c = d.digitChar ∨ c = d.digitChar.toUpper) : b.digit? c = some d := by
  have hall : ∀ d < 16, (isHexDigit d.digitChar = true ∧ hexDigitValue d.digitChar = d) ∧
      isHexDigit d.digitChar.toUpper = true ∧ hexDigitValue d.digitChar.toUpper = d := by
    decide
  have hle : b.radix ≤ 16 := by cases b <;> decide
  have hvalue : isHexDigit c = true ∧ hexDigitValue c = d := by
    obtain ⟨hlower, hupper⟩ := hall d (hd.trans_le hle)
    rcases hc with rfl | rfl
    · exact hlower
    · exact hupper
  rw [digit?, hvalue.1, hvalue.2, Bool.true_and, if_pos (decide_eq_true hd)]

theorem padded_lt (b : Base) (k n : Nat) :
    ∀ d ∈ List.replicate k 0 ++ (Nat.digits b.radix n).reverse, d < b.radix := by
  intro d hd
  rcases List.mem_append.1 hd with hd | hd
  · rw [List.eq_of_mem_replicate hd]
    exact b.radix_pos
  · exact Nat.digits_lt_base b.one_lt_radix (List.mem_reverse.1 hd)

end Base

namespace Spells

variable {b : Base} {ds : List Nat} {cs : List Char}

theorem separated (h : Spells ds cs) (hds : ∀ d ∈ ds, d < b.radix) :
    Separated (· ∈ b.digits.toList) cs := by
  have hmem : ∀ {d c}, d < b.radix → (c = d.digitChar ∨ c = d.digitChar.toUpper) →
      c ∈ b.digits.toList := by
    intro d c hd hc
    rw [← Base.isSome_digit?_iff, Base.digit?_of_digitChar hd hc]
    rfl
  induction h with
  | nil => exact .nil
  | digit hc h ih =>
    obtain ⟨hd, hds⟩ := List.forall_mem_cons.1 hds
    exact .digit (hmem hd hc) (ih hds)
  | separator hc h ih =>
    obtain ⟨hd, hds⟩ := List.forall_mem_cons.1 hds
    exact .separator (hmem hd hc) (ih hds)

theorem mapM_digit? (h : Spells ds cs) (hds : ∀ d ∈ ds, d < b.radix) :
    (Literal.withoutSeparators cs).mapM b.digit? = some ds := by
  have hcons : ∀ {d ds c cs}, d < b.radix → (c = d.digitChar ∨ c = d.digitChar.toUpper) →
      (Literal.withoutSeparators cs).mapM b.digit? = some ds →
      (Literal.withoutSeparators (c :: cs)).mapM b.digit? = some (d :: ds) := by
    intro d ds c cs hd hc h
    have hdigit := Base.digit?_of_digitChar hd hc
    have hne : c ≠ '_' := by
      rintro rfl
      cases b <;> cases hdigit
    rw [Literal.withoutSeparators_cons hne]
    exact Base.mapM_digit?_cons.2 ⟨d, ds, hdigit, h, rfl⟩
  induction h with
  | nil => rfl
  | digit hc h ih =>
    obtain ⟨hd, hds⟩ := List.forall_mem_cons.1 hds
    exact hcons hd hc (ih hds)
  | @separator d ds c cs hc h ih =>
    obtain ⟨hd, hds⟩ := List.forall_mem_cons.1 hds
    show (Literal.withoutSeparators (c :: cs)).mapM b.digit? = some (d :: ds)
    exact hcons hd hc (ih hds)

/-- The digits of a number, behind zeros, are read as the number. -/
theorem padded {k n : Nat}
    (h : Spells (List.replicate k 0 ++ (Nat.digits b.radix n).reverse) cs) :
    Separated (· ∈ b.digits.toList) cs ∧
      b.number? (Literal.withoutSeparators cs) = some n := by
  have hlt := b.padded_lt k n
  refine ⟨h.separated hlt, ?_⟩
  rw [Base.number?, h.mapM_digit? hlt, Option.map_some, List.reverse_append,
    List.reverse_reverse, List.reverse_replicate, Nat.ofDigits_append_replicate_zero,
    Nat.ofDigits_digits]

end Spells

namespace Numeral

variable {n : Numeral}

theorem Formed.begins (h : n.Formed) : ∃ c cs, n.text = c :: cs ∧ c.isDigit = true := by
  rw [text_eq]
  cases hl : n.lead with
  | plain =>
    obtain ⟨c, cs, hw, hc, -⟩ := h.plain hl
    rw [hw]
    exact ⟨c, _, rfl, hc⟩
  | zero => exact ⟨'0', _, rfl, rfl⟩
  | marked l => exact ⟨'0', _, rfl, rfl⟩

/-- The scanner takes the text of a numeral for that numeral, and reports its fault. -/
theorem Formed.front_text (h : n.Formed) (hread : read n.text = (n, [])) :
    IsWord (String.ofList n.text) ∧ Lexeme.front n.text =
      ⟨n.kind, n.text, n.fault?.map fun f => ⟨.numeral f.defect, f.offset, f.seen⟩⟩ := by
  obtain ⟨c, cs, htext, hc⟩ := h.begins
  have hletter : beginsIdent c = false := by
    simpa using of_isDigit (fun c => !beginsIdent c) (by decide) hc
  have hscan : Lexeme.scan c cs = .number (c :: cs) := by
    rw [Lexeme.scan, hletter, if_neg Bool.false_ne_true, if_pos hc]
  have hnumber : Lexeme.number n.text =
      ⟨n.kind, n.text, n.fault?.map fun f => ⟨.numeral f.defect, f.offset, f.seen⟩⟩ := by
    rw [Lexeme.number, hread]
  have hfront : Lexeme.front n.text = .number n.text := by
    rw [htext]
    exact hscan
  have hscans : Token.Scans ⟨n.kind, String.ofList n.text⟩ := by
    refine ⟨c, cs, String.toList_ofList.trans htext, ?_, ?_, ?_⟩
    · rintro rfl
      cases hc
    · simp [beginsToken, hc]
    · rw [hscan, ← htext, hnumber]
      rfl
  exact ⟨⟨n.kind, hscans.tokens (.single _)⟩, hfront.trans hnumber⟩

end Numeral

namespace Renders

variable {n : Nat} {w : List Char}

theorem leading_digit {d : Nat} {ds : List Nat} (hn : n ≠ 0)
    (h : (Nat.digits 10 n).reverse = d :: ds) : d ≠ 0 := by
  have hdigits : Nat.digits 10 n = ds.reverse ++ [d] := by
    rw [← List.reverse_cons, ← h, List.reverse_reverse]
  have hlast := Nat.getLast_digit_ne_zero 10 hn
  simpa only [hdigits, List.getLast_append_singleton] using hlast

theorem mem_integer (h : Renders n w) : w ∈ Lexical.integer.matches' := by
  rw [Lexical.mem_integer]
  cases h with
  | decimal h hn hs =>
    have hsep := (Spells.padded (b := .decimal) (k := 0) h).1
    have hlt := Base.decimal.padded_lt 0 n
    cases hds : (Nat.digits 10 n).reverse with
    | nil => exact absurd (Nat.digits_eq_nil_iff_eq_zero.1 (List.reverse_eq_nil_iff.1 hds)) hn
    | cons d ds =>
      have hlead := leading_digit hn hds
      rw [List.replicate_zero, List.nil_append, show Base.decimal.radix = 10 from rfl, hds] at hlt
      rw [hds] at h
      cases h with
      | separator hc h => exact absurd rfl hs
      | @digit _ _ c cs hc h =>
        have hall : ∀ d < 10, d ≠ 0 → d.digitChar ∈ "123456789".toList ∧
            d.digitChar.toUpper ∈ "123456789".toList := by
          decide
        obtain ⟨hlower, hupper⟩ := hall d (List.forall_mem_cons.1 hlt).1 hlead
        refine Or.inl ⟨c, cs, ?_, ?_, rfl⟩
        · rcases hc with rfl | rfl
          · exact hlower
          · exact hupper
        · exact h.separated (List.forall_mem_cons.1 hlt).2
  | octal k h => exact Or.inr (Or.inl ⟨_, (Spells.padded (b := .octal) h).1, rfl⟩)
  | marked hl k h hne => exact Or.inr (Or.inr ⟨_, _, _, hl, h.padded.1, hne, rfl⟩)

/-- The digits that it has behind its lead write the number. -/
theorem bare (h : Renders n w) : ∃ b ds, Literal.Bare (Literal.withoutSeparators w) b ds ∧
    ds ≠ [] ∧ b.number? ds = some n := by
  cases h with
  | decimal h hn hs =>
    have hnumber := (Spells.padded (b := .decimal) (k := 0) h).2
    have hmap := h.mapM_digit? (Base.decimal.padded_lt 0 n)
    cases hds : Literal.withoutSeparators w with
    | nil =>
      rw [hds] at hnumber
      exact absurd (Option.some.inj hnumber).symm hn
    | cons c cs =>
      rw [hds] at hmap hnumber
      obtain ⟨d, ds, hc, -, hdigits⟩ := Base.mapM_digit?_cons.1 hmap
      refine ⟨.decimal, _, .decimal ?_, List.cons_ne_nil c cs, hnumber⟩
      rintro ⟨⟩
      exact absurd (Option.some.inj hc).symm (leading_digit hn hdigits)
  | @octal cs k h =>
    have hnumber := (Spells.padded (b := .octal) h).2
    rw [Literal.withoutSeparators_cons (by decide)]
    cases hds : Literal.withoutSeparators cs with
    | nil =>
      rw [hds] at hnumber
      exact ⟨.decimal, ['0'], .decimal fun _ => rfl, List.cons_ne_nil _ _, hnumber⟩
    | cons c ds =>
      rw [hds] at hnumber
      have hc := Literal.mem_digits_of_number? hnumber c List.mem_cons_self
      have hall : ∀ b : Base, ∀ c ∈ Base.octal.digits.toList, c ∉ b.letters.toList := by
        intro b
        exact forall_mem_of_all (by cases b <;> decide)
      exact ⟨.octal, _, .octal fun b => hall b c hc, List.cons_ne_nil c ds, hnumber⟩
  | @marked b l cs hl k h hne =>
    have hletter : l ≠ '_' := by
      rintro rfl
      revert hl
      cases b <;> decide
    rw [Literal.withoutSeparators_cons (by decide), Literal.withoutSeparators_cons hletter]
    refine ⟨b, _, .marked hl, fun hnil => ?_, h.padded.2⟩
    have hmap := h.mapM_digit? (b.padded_lt k n)
    rw [hnil] at hmap
    rw [Base.mapM_digit?_nil.1 hmap] at h
    cases h
    exact hne rfl

/-- A rendered number is one token, without a report, and its value is the number. -/
theorem integer_read (h : Renders n w) {reads : List Read}
    (hr : Delivers reads (String.ofList w).toUTF8) :
    (Tokens.ofText (.ofReads reads)).entries.map (·.token) = [⟨.integer, String.ofList w⟩] ∧
    (Text.ofReads reads).reported = [] ∧
    Literal.integerValue (String.ofList w) =
      if n < 2 ^ 63 then .ok n else .error .overflow := by
  obtain ⟨m, hm, hi, hnone, rfl⟩ := Numeral.mem_integer.1 h.mem_integer
  obtain ⟨-, hexponent, himaginary⟩ := Numeral.isInteger_iff.1 hi
  have hread := hm.read_text (by rw [hexponent]; nofun)
  obtain ⟨hword, hfront⟩ := hm.front_text hread
  obtain ⟨htokens, hreported⟩ := hword.lexed_ofReads hr
  rw [String.toList_ofList, hfront] at htokens hreported
  refine ⟨htokens.trans ?_, hreported.trans ?_, ?_⟩
  · simp [Lexeme.token, Numeral.kind, hi, himaginary]
  · simp [Lexeme.notes, hnone]
  · obtain ⟨b, ds, hbare, hne, hnumber⟩ := h.bare
    rw [← @String.toList_ofList m.text] at hbare
    rw [Literal.integerValue_eq_iff hbare]
    by_cases hlt : n < 2 ^ 63
    · rw [if_pos hlt]
      exact .value hne hnumber (Nat.le_of_lt_succ hlt)
    · rw [if_neg hlt]
      exact .beyond hnumber (Nat.lt_of_succ_le (Nat.le_of_not_lt hlt))

/-- In base sixteen, with zeros in front, in both cases and with separators. -/
theorem integer_read_padded : Renders 255 "0X_00f_F".toList ∧
    (Tokens.ofText (.ofString "0X_00f_F")).entries.map (·.token) = [⟨.integer, "0X_00f_F"⟩] ∧
    (Text.ofString "0X_00f_F").reported = [] ∧ Literal.integerValue "0X_00f_F" = .ok 255 := by
  have hdigits : List.replicate 2 0 ++ (Nat.digits Base.hexadecimal.radix 255).reverse =
      [0, 0, 15, 15] := by
    rw [show Base.hexadecimal.radix = 16 from rfl, show Nat.digits 16 255 = [15, 15] by norm_num]
    rfl
  have h : Renders 255 "0X_00f_F".toList := by
    rw [show "0X_00f_F".toList = '0' :: 'X' :: ['_', '0', '0', 'f', '_', 'F'] by decide]
    refine .marked (b := .hexadecimal) (by decide) 2 ?_ (List.cons_ne_nil _ _)
    rw [hdigits]
    exact .separator (Or.inl rfl) (.digit (Or.inl rfl) (.digit (Or.inl rfl)
      (.separator (Or.inr rfl) .nil)))
  have hread := h.integer_read (.single _)
  rw [String.ofList_toList] at hread
  exact ⟨h, hread⟩

end Renders

end FrontEnd
