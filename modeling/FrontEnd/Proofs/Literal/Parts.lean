import FrontEnd.Literal.Fault
import FrontEnd.Proofs.Lexing.Lookahead

/-!
# The parts of a numeral

What a numeral that was read from a text consists of: digits and separators of its base,
an exponent with decimal digits, and a lead that says the base.  Of its faults, the one
that concerns separators stands apart: it does not keep the numeral from having a value.
-/

namespace FrontEnd

/-! ## Digits -/

def hexDigits : List Char :=
  "0123456789abcdefABCDEF".toList

theorem mem_hexDigits {c : Char} (h : isHexDigit c = true) : c ∈ hexDigits := by
  have hall : ∀ n < 103, ((48 ≤ n ∧ n ≤ 57) ∨ (97 ≤ n ∧ n ≤ 102) ∨ (65 ≤ n ∧ n ≤ 70)) →
      Char.ofNat n ∈ hexDigits := by
    decide
  have hc : (48 ≤ c.toNat ∧ c.toNat ≤ 57) ∨ (97 ≤ c.toNat ∧ c.toNat ≤ 102) ∨
      (65 ≤ c.toNat ∧ c.toNat ≤ 70) := by
    simp only [isHexDigit, Char.isDigit, Bool.or_eq_true, Bool.and_eq_true, decide_eq_true_eq,
      Char.le_def, UInt32.le_iff_toNat_le, ge_iff_le, or_assoc] at h
    exact h
  have hmem := hall c.toNat (by omega) hc
  rwa [Char.ofNat_toNat] at hmem

theorem of_isHexDigit (p : Char → Bool) (h : hexDigits.all p = true) {c : Char}
    (hc : isHexDigit c = true) : p c = true :=
  List.all_eq_true.1 h c (mem_hexDigits hc)

/-- A property that all runes of a text have, which are looked at one by one. -/
theorem forall_mem_of_all {cs : List Char} {p : Char → Prop} [DecidablePred p]
    (h : (cs.all fun c => decide (p c)) = true) : ∀ c ∈ cs, p c :=
  fun c hc => of_decide_eq_true (List.all_eq_true.1 h c hc)

theorem of_isDigit (p : Char → Bool) (h : hexDigits.all (fun c => !c.isDigit || p c) = true)
    {c : Char} (hc : c.isDigit = true) : p c = true := by
  have hhex : isHexDigit c = true := by simp [isHexDigit, hc]
  simpa [hc] using of_isHexDigit _ h hhex

namespace Base

theorem ofLetter?_of_isDigit {c : Char} (h : c.isDigit = true) : (ofLetter? c).isSome = false := by
  simpa using of_isDigit (fun c => !(ofLetter? c).isSome) (by decide) h

theorem isAlpha_of_ofLetter? {c : Char} (h : (ofLetter? c).isSome = true) :
    c.isAlpha = true := by
  unfold ofLetter? Char.toLower at h
  by_cases hu : c.val ≥ 'A'.val ∧ c.val ≤ 'Z'.val
  · have hupper : c.isUpper = true := by
      unfold Char.isUpper
      simpa using hu
    show (c.isUpper || c.isLower) = true
    rw [hupper]
    rfl
  · rw [dif_neg (by simpa using hu)] at h
    split at h
    all_goals first | rfl | cases h

theorem digit?_decimal {c : Char} (h : c.isDigit = true) : (decimal.digit? c).isSome = true :=
  of_isDigit (fun c => (decimal.digit? c).isSome) (by decide) h

theorem takes_eq_isDigit {b : Base} (h : b ≠ .hexadecimal) : b.takes = Char.isDigit := by
  cases b <;> first | rfl | exact absurd rfl h

end Base

/-! ## Parts -/

structure Exponent.Formed (e : Exponent) : Prop where
  marker : isMarker e.marker = true
  sign : ∀ c ∈ e.sign, c = '+' ∨ c = '-'
  digits : ∀ c ∈ e.digits, inRun .decimal c = true

/-- A numeral with parts such as are read from a text that begins with a digit. -/
structure Numeral.Formed (n : Numeral) : Prop where
  lead : ∀ l, n.lead = .marked l → (Base.ofLetter? l).isSome = true
  /-- Without a lead the first digit is none that would be one. -/
  plain : n.lead = .plain → ∃ c cs, n.whole = c :: cs ∧ c.isDigit = true ∧ c ≠ '0'
  whole : ∀ c ∈ n.whole, inRun n.base c = true
  fraction : ∀ ds ∈ n.fraction, ∀ c ∈ ds, inRun n.base c = true
  exponent : ∀ e ∈ n.exponent, e.Formed

theorem Exponent.formed_read {cs : List Char} : ∀ e ∈ (read cs).1, e.Formed := by
  intro e he
  cases cs with
  | nil => cases he
  | cons c cs =>
    by_cases hm : isMarker c = true
    · rw [read_some hm] at he
      cases he
      refine ⟨hm, fun s hs => ?_, fun d hd => List.mem_takeWhile_imp hd⟩
      unfold readSign at hs
      split at hs <;> cases hs
      · exact Or.inl rfl
      · exact Or.inr rfl
    · simp only [read, hm] at he
      cases he

namespace Numeral

theorem lead_read_cases (cs : List Char) :
    (Lead.read cs = .plain ∧ ∀ c, cs.head? = some c → c ≠ '0') ∨ Lead.read cs = .zero ∨
      ∃ l, Lead.read cs = .marked l ∧ (Base.ofLetter? l).isSome = true := by
  cases cs with
  | nil => exact Or.inl ⟨rfl, nofun⟩
  | cons c cs =>
    by_cases hc : c = '0'
    · subst hc
      cases cs with
      | nil => exact Or.inr (Or.inl rfl)
      | cons l cs =>
        by_cases hl : (Base.ofLetter? l).isSome = true
        · exact Or.inr (Or.inr ⟨l, Lead.read_marked hl cs, hl⟩)
        · exact Or.inr (Or.inl (if_neg hl))
    · have hhead : ∀ d, (c :: cs).head? = some d → d ≠ '0' := by
        rintro d ⟨⟩
        exact hc
      exact Or.inl ⟨Lead.read_plain fun d hd => by simpa using hhead d hd, hhead⟩

theorem formed_read {c : Char} (hc : c.isDigit = true) (cs : List Char) :
    (read (c :: cs)).1.Formed := by
  constructor
  · intro l hl
    change Lead.read (c :: cs) = .marked l at hl
    rcases lead_read_cases (c :: cs) with ⟨h, -⟩ | h | ⟨l', h, hs⟩
    · rw [h] at hl
      cases hl
    · rw [h] at hl
      cases hl
    · rw [h] at hl
      cases hl
      exact hs
  · intro hl
    change Lead.read (c :: cs) = .plain at hl
    have hne : c ≠ '0' := by
      rcases lead_read_cases (c :: cs) with ⟨-, h⟩ | h | ⟨l, h, -⟩
      · exact h c rfl
      · rw [h] at hl
        cases hl
      · rw [h] at hl
        cases hl
    have hrun : inRun .decimal c = true := by simp [inRun, Base.takes, hc]
    refine ⟨c, cs.takeWhile (inRun .decimal), ?_, hc, hne⟩
    simp only [read, hl]
    exact List.takeWhile_cons_of_pos hrun
  · exact fun d hd => List.mem_takeWhile_imp hd
  · intro ds hds
    simp only [read] at hds
    unfold readFraction at hds
    split at hds <;> cases hds
    exact fun d hd => List.mem_takeWhile_imp hd
  · exact Exponent.formed_read

/-! ## Faults -/

def misshape? (n : Numeral) : Option Fault :=
  n.pointFault <|> n.digitsFault <|> n.exponentFault <|> n.digitFault

theorem fault?_eq (n : Numeral) : n.fault? = (n.misshape? <|> n.separatorFault) := by
  unfold fault? misshape?
  cases n.pointFault <;> cases n.digitsFault <;> cases n.exponentFault <;> rfl

theorem misshape?_eq_none {n : Numeral} : n.misshape? = none ↔ n.pointFault = none ∧
    n.digitsFault = none ∧ n.exponentFault = none ∧ n.digitFault = none := by
  simp only [misshape?, Option.orElse_eq_orElse, Option.orElse_eq_or, Option.or_eq_none_iff]

theorem length_text (n : Numeral) : n.text.length =
    (n.lead.text ++ n.whole).length + (pointed n.fraction).length +
      (n.exponent.elim [] Exponent.text).length + (imaginaryMark n.imaginary).length := by
  simp only [text, magnitude, mantissa, List.length_append]

/-- A fault is shown within the numeral or just behind it. -/
theorem misshape?_spec {n : Numeral} {f : Fault} (h : n.misshape? = some f) :
    f.defect ≠ .separator ∧ f.offset ≤ n.text.length := by
  have hlen := n.length_text
  have hmantissa : n.mantissa.length = (n.lead.text ++ n.whole).length +
      (pointed n.fraction).length := List.length_append
  have hmagnitude : n.magnitude.length = n.mantissa.length +
      (n.exponent.elim [] Exponent.text).length := List.length_append
  simp only [misshape?, Option.orElse_eq_orElse, Option.orElse_eq_or, Option.or_eq_some_iff] at h
  rcases h with h | ⟨-, h | ⟨-, h | ⟨-, h⟩⟩⟩
  · unfold pointFault at h
    split at h <;> cases h
    exact ⟨nofun, by show (n.lead.text ++ n.whole).length ≤ _; omega⟩
  · unfold digitsFault at h
    split at h <;> cases h
    exact ⟨nofun, by show n.mantissa.length ≤ _; omega⟩
  · unfold exponentFault at h
    split at h
    · split at h
      · cases h
        exact ⟨nofun, by show n.mantissa.length ≤ _; omega⟩
      split at h
      · cases h
        exact ⟨nofun, by show n.mantissa.length ≤ _; omega⟩
      split at h <;> cases h
      exact ⟨nofun, by show n.magnitude.length ≤ _; omega⟩
    · split at h <;> cases h
      exact ⟨nofun, by show n.mantissa.length ≤ _; omega⟩
  · unfold digitFault at h
    split at h
    · obtain ⟨d, hd, rfl⟩ := Option.map_eq_some_iff.1 h
      have hidx : n.whole.findIdx (isStray n.base) ≤ n.whole.length := List.findIdx_le_length
      refine ⟨nofun, ?_⟩
      show n.lead.text.length + n.whole.findIdx (isStray n.base) ≤ _
      rw [List.length_append] at hlen
      omega
    · cases h

end Numeral

/-! ## Reading a numeral again -/

theorem of_inRun_decimal {b : Base} {c : Char} (hc : inRun b c = true) (hb : b ≠ .hexadecimal)
    (p : Char → Bool) (hu : p '_' = false)
    (h : hexDigits.all (fun c => !c.isDigit || !p c) = true) : p c = false := by
  unfold inRun at hc
  rcases Bool.or_eq_true_iff.1 hc with hc | hc
  · rw [of_decide_eq_true hc]
    exact hu
  · rw [Base.takes_eq_isDigit hb] at hc
    simpa using of_isDigit (fun c => !p c) h hc

theorem head_append {p : Char → Bool} {as bs : List Char} (has : ∀ c ∈ as, p c = false)
    (hbs : ∀ c, bs.head? = some c → p c = false) :
    ∀ c, (as ++ bs).head? = some c → p c = false := by
  cases as with
  | nil => exact hbs
  | cons a as =>
    rintro c ⟨⟩
    exact has a List.mem_cons_self

namespace Exponent

theorem Formed.read_text {e : Exponent} (h : e.Formed) {rest : List Char}
    (hrest : ∀ c, rest.head? = some c → inRun .decimal c = false ∧ c ≠ '+' ∧ c ≠ '-') :
    read (e.text ++ rest) = (some e, rest) := by
  have hsign : readSign (e.sign.toList ++ (e.digits ++ rest)) = (e.sign, e.digits ++ rest) := by
    cases hs : e.sign with
    | some c => rcases h.sign c hs with rfl | rfl <;> rfl
    | none =>
      have hdigits : ∀ c ∈ e.digits, (c == '+' || c == '-') = false := fun c hc =>
        of_inRun_decimal (h.digits c hc) nofun (fun c => c == '+' || c == '-') rfl (by decide)
      show readSign (e.digits ++ rest) = _
      exact readSign_none (head_append hdigits fun c hc => by simpa using (hrest c hc).2)
  rw [text, List.cons_append, List.append_assoc, read_some h.marker, hsign,
    takeWhile_append_head h.digits fun c hc => (hrest c hc).1,
    dropWhile_append_head h.digits fun c hc => (hrest c hc).1]

end Exponent

namespace Numeral

variable {n : Numeral}

def ending (n : Numeral) : List Char :=
  n.exponent.elim [] Exponent.text ++ imaginaryMark n.imaginary

theorem text_eq (n : Numeral) :
    n.text = n.lead.text ++ (n.whole ++ (pointed n.fraction ++ n.ending)) := by
  simp only [text, magnitude, mantissa, ending, List.append_assoc]

theorem head_ending {p : Char → Bool} (hm : ∀ e ∈ n.exponent, p e.marker = false)
    (hi : p 'i' = false) : ∀ c, n.ending.head? = some c → p c = false := by
  intro c hc
  unfold ending at hc
  cases he : n.exponent with
  | some e =>
    rw [he] at hc
    cases hc
    exact hm e he
  | none =>
    rw [he] at hc
    cases hn : n.imaginary with
    | false =>
      rw [hn] at hc
      cases hc
    | true =>
      rw [hn] at hc
      cases hc
      exact hi

theorem head_pointed {p : Char → Bool} {f : Option (List Char)} {rest : List Char}
    (hp : p '.' = false) (hrest : ∀ c, rest.head? = some c → p c = false) :
    ∀ c, (pointed f ++ rest).head? = some c → p c = false := by
  cases f with
  | none => exact hrest
  | some ds =>
    rintro c ⟨⟩
    exact hp

theorem Formed.of_marker (h : n.Formed) (p : Char → Bool)
    (hp : ['e', 'E', 'p', 'P'].any p = false) : ∀ e ∈ n.exponent, p e.marker = false := by
  intro e he
  have hm := (h.exponent e he).marker
  unfold Exponent.isMarker at hm
  have hmem : e.marker ∈ ['e', 'E', 'p', 'P'] := by simpa [or_assoc] using hm
  simpa using List.any_eq_false.1 hp e.marker hmem

theorem Formed.lead_read (h : n.Formed) : Lead.read n.text = n.lead := by
  rw [text_eq]
  cases hl : n.lead with
  | plain =>
    obtain ⟨c, cs, hw, -, hne⟩ := h.plain hl
    rw [hw]
    refine Lead.read_plain ?_
    rintro d ⟨⟩
    simpa using hne
  | zero =>
    have hbase : n.base ≠ .hexadecimal := by
      unfold base
      rw [hl]
      decide
    have hwhole : ∀ c ∈ n.whole, (Base.ofLetter? c).isSome = false := fun c hc =>
      of_inRun_decimal (h.whole c hc) hbase (fun c => (Base.ofLetter? c).isSome) rfl (by decide)
    have hmarker := h.of_marker (fun c => (Base.ofLetter? c).isSome) (by decide)
    have hrest := head_append hwhole (head_pointed (f := n.fraction) rfl (head_ending hmarker rfl))
    exact Lead.read_zero hrest
  | marked l => exact if_pos (h.lead l hl)

/-- The text of a numeral says which one it is, if the letter of the exponent is no digit. -/
theorem Formed.read_text (h : n.Formed)
    (hm : ∀ e ∈ n.exponent, inRun n.base e.marker = false) : read n.text = (n, []) := by
  have hending : ∀ c, n.ending.head? = some c → inRun n.base c = false :=
    head_ending hm (by cases n.base <;> rfl)
  have hpointed : ∀ c, (pointed n.fraction ++ n.ending).head? = some c → inRun n.base c = false :=
    head_pointed (by cases n.base <;> rfl) hending
  have hfraction : readFraction n.base (pointed n.fraction ++ n.ending) =
      (n.fraction, n.ending) := by
    cases hf : n.fraction with
    | none => exact readFraction_none (head_ending (h.of_marker (· == '.') (by decide)) rfl)
    | some ds =>
      have hds := h.fraction ds hf
      rw [pointed, List.cons_append, readFraction_some, takeWhile_append_head hds hending,
        dropWhile_append_head hds hending]
  have hexponent : Exponent.read n.ending = (n.exponent, imaginaryMark n.imaginary) := by
    unfold ending
    have hmark : ∀ c, (imaginaryMark n.imaginary).head? = some c → c = 'i' := by
      cases n.imaginary <;> rintro c ⟨⟩
      rfl
    cases he : n.exponent with
    | none => exact Exponent.read_none fun c hc => hmark c hc ▸ rfl
    | some e => exact (h.exponent e he).read_text fun c hc => hmark c hc ▸ by decide
  have himaginary : readImaginary (imaginaryMark n.imaginary) = (n.imaginary, []) := by
    cases n.imaginary <;> rfl
  have hlead := h.lead_read
  rw [text_eq] at hlead ⊢
  have htake := takeWhile_append_head h.whole hpointed
  have hdrop := dropWhile_append_head h.whole hpointed
  unfold base at htake hdrop hfraction
  simp only [read, hlead, List.drop_left, htake, hdrop, hfraction, hexponent, himaginary]

end Numeral
end FrontEnd
