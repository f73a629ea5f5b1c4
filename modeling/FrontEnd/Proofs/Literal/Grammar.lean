import FrontEnd.Proofs.Literal.Conversion
import FrontEnd.Proofs.Literal.Lexical

/-!
# The grammar of numerals

Reading takes in more than the languages of integers and floats, and reports one fault of what
is not right: a numeral has no fault exactly if its text is in the language of its kind.  A digit
that is named in a fault is the first one that the base does not have.
-/

namespace FrontEnd

/-! ## Digits and letters -/

namespace Base

variable {b : Base} {c : Char}

theorem isSome_digit?_iff : (b.digit? c).isSome = true ↔ c ∈ b.digits.toList := by
  constructor
  · intro h
    have hhex : isHexDigit c = true := by
      unfold digit? at h
      split at h
      · next hc => exact (Bool.and_eq_true_iff.1 hc).1
      · cases h
    have hall := of_isHexDigit (fun c => !(b.digit? c).isSome || decide (c ∈ b.digits.toList))
      (by cases b <;> decide) hhex
    simpa [h] using hall
  · have hall : ∀ c ∈ b.digits.toList, (b.digit? c).isSome = true :=
      forall_mem_of_all (by cases b <;> decide)
    exact hall c

theorem takes_of_digits (h : c ∈ b.digits.toList) : b.takes c = true := by
  have hall : ∀ c ∈ b.digits.toList, b.takes c = true :=
    forall_mem_of_all (by cases b <;> decide)
  exact hall c h

/-- Runs in a base up to ten take in all decimal digits. -/
theorem takes_eq_decimal (h : b ≠ .hexadecimal) :
    (b.takes · = true) = (· ∈ decimal.digits.toList) := by
  funext c
  rw [takes_eq_isDigit h, ← isSome_digit?_iff]
  exact propext ⟨digit?_decimal, fun hd => takes_of_digits (isSome_digit?_iff.1 hd)⟩

theorem takes_eq_hexadecimal :
    (hexadecimal.takes · = true) = (· ∈ hexadecimal.digits.toList) := by
  funext c
  refine propext ⟨fun hc => isSome_digit?_iff.1 ?_, takes_of_digits⟩
  exact of_isHexDigit (fun c => (hexadecimal.digit? c).isSome) (by decide) hc

theorem ofLetter?_iff {l : Char} : ofLetter? l = some b ↔ l ∈ b.letters.toList := by
  constructor
  · intro h
    have hlt : l.toNat < 123 := by
      have halpha := isAlpha_of_ofLetter? (c := l) (by rw [h]; rfl)
      unfold Char.isAlpha Char.isUpper Char.isLower at halpha
      simp only [Bool.or_eq_true, Bool.and_eq_true, decide_eq_true_eq, UInt32.le_iff_toNat_le,
        ge_iff_le] at halpha
      change _ ∧ l.toNat ≤ 90 ∨ _ ∧ l.toNat ≤ 122 at halpha
      omega
    have hall : ∀ n < 123, ofLetter? (Char.ofNat n) = some b →
        Char.ofNat n ∈ b.letters.toList := by
      cases b <;> decide
    have hmem := hall l.toNat hlt
    rw [Char.ofNat_toNat] at hmem
    exact hmem h
  · have hall : ∀ l ∈ b.letters.toList, ofLetter? l = some b :=
      forall_mem_of_all (by cases b <;> decide)
    exact hall l

end Base

theorem Numeral.isStray_eq_false {b : Base} {c : Char} :
    isStray b c = false ↔ c = '_' ∨ c ∈ b.digits.toList := by
  rw [← Base.isSome_digit?_iff, isStray, Bool.and_eq_false_iff]
  simp

section Digits

variable {b : Base} {cs : List Char}

theorem Separated.takes (h : Separated (· ∈ b.digits.toList) cs) : Separated (b.takes ·) cs :=
  h.imp fun _ _ => Base.takes_of_digits

theorem Separated.inRun (h : Separated (· ∈ b.digits.toList) cs) : ∀ c ∈ cs, inRun b c = true :=
  fun c hc => inRun_iff.2 ((h.mem c hc).imp_right Base.takes_of_digits)

theorem Separated.isStray (h : Separated (· ∈ b.digits.toList) cs) :
    ∀ c ∈ cs, Numeral.isStray b c = false :=
  fun c hc => Numeral.isStray_eq_false.2 (h.mem c hc)

theorem Separated.digits {b' : Base} (h : Separated (b'.takes ·) cs)
    (hs : ∀ c ∈ cs, Numeral.isStray b c = false) : Separated (· ∈ b.digits.toList) cs := by
  refine h.imp fun c hc ht => (Numeral.isStray_eq_false.1 (hs c hc)).resolve_left ?_
  rintro rfl
  exact b'.takes_separator ht

theorem inRun_of_fraction {fraction : Option (List Char)}
    (h : ∀ ds ∈ fraction, ds = [] ∨ IsRun (· ∈ b.digits.toList) ds) :
    ∀ ds ∈ fraction, ∀ c ∈ ds, FrontEnd.inRun b c = true := by
  intro ds hds
  rcases h ds hds with rfl | hrun
  · exact List.forall_mem_nil _
  · exact hrun.separated.inRun

theorem Exponent.Suits.formed {s : String} {e : Exponent} (h : e.Suits s)
    (hs : ∀ c ∈ s.toList, Exponent.isMarker c = true) : e.Formed where
  marker := hs e.marker h.marker
  sign := h.sign
  digits := h.digits.separated.inRun

end Digits

/-! ## Numerals without a fault -/

namespace Numeral

variable {n : Numeral}

theorem fault?_eq_none : n.fault? = none ↔ n.pointFault = none ∧ n.digitsFault = none ∧
    n.exponentFault = none ∧ n.digitFault = none ∧ Separator.misplaced? n.text = none := by
  rw [fault?_eq, Option.orElse_eq_orElse, Option.orElse_eq_or, Option.or_eq_none_iff,
    misshape?_eq_none, separatorFault, Option.map_eq_none_iff]
  simp only [and_assoc]

theorem pointFault_eq_none : n.pointFault = none ↔
    (n.fraction.isSome = true → n.lead.isMarked = true → n.base = .hexadecimal) := by
  simp [pointFault]

theorem digitsFault_eq_none : n.digitsFault = none ↔
    n.lead = .zero ∨ hasDigit n.whole = true ∨ n.fraction.any hasDigit = true := by
  simp [digitsFault, or_iff_not_imp_left]

theorem digitFault_eq_none : n.digitFault = none ↔
    (n.isInteger = true → ∀ c ∈ n.whole, isStray n.base c = false) := by
  simp [digitFault]

def Fits (n : Numeral) (e : Exponent) : Prop :=
  (e.marker.toLower = 'e' → n.lead.isMarked = false) ∧
    (e.marker.toLower = 'p' → n.base = .hexadecimal)

theorem exponentFault_eq_none : n.exponentFault = none ↔
    (∀ e ∈ n.exponent, n.Fits e ∧ hasDigit e.digits = true) ∧
    (n.exponent = none → n.fraction.isSome = true → n.base ≠ .hexadecimal) := by
  unfold exponentFault Fits
  cases n.exponent with
  | none => simp
  | some e =>
    simp only [Option.mem_def, Option.some.injEq, forall_eq', reduceCtorEq, false_imp_iff, and_true,
      Bool.and_eq_true, decide_eq_true_eq]
    grind

theorem Formed.marker_cases (h : n.Formed) {e : Exponent} (he : e ∈ n.exponent) :
    e.marker.toLower = 'e' ∧ e.marker ∈ "eE".toList ∨
      e.marker.toLower = 'p' ∧ e.marker ∈ "pP".toList := by
  have hm := (h.exponent e he).marker
  simp only [Exponent.isMarker, Bool.or_eq_true, decide_eq_true_eq] at hm
  rcases hm with ((hm | hm) | hm) | hm <;> rw [hm] <;> decide

theorem not_mem_of_mem_marker {c : Char} (h : c ∈ "eE".toList) : c ∉ "pP".toList := by
  have hall : ∀ c ∈ "eE".toList, c ∉ "pP".toList := forall_mem_of_all (by decide)
  exact hall c h

theorem Formed.fits_unmarked (h : n.Formed) {e : Exponent} (he : e ∈ n.exponent)
    (hl : n.lead.isMarked = false) (hb : n.base ≠ .hexadecimal) :
    n.Fits e ↔ e.marker ∈ "eE".toList := by
  rcases h.marker_cases he with ⟨hm, hmem⟩ | ⟨hm, hmem⟩
  · have htwo : e.marker.toLower ≠ 'p' := by
      rw [hm]
      decide
    exact iff_of_true ⟨fun _ => hl, fun hp => absurd hp htwo⟩ hmem
  · exact iff_of_false (fun hf => hb (hf.2 hm)) fun hten => not_mem_of_mem_marker hten hmem

theorem Formed.fits_marked (h : n.Formed) {e : Exponent} (he : e ∈ n.exponent)
    (hl : n.lead.isMarked = true) :
    n.Fits e ↔ e.marker ∈ "pP".toList ∧ n.base = .hexadecimal := by
  rcases h.marker_cases he with ⟨hm, hmem⟩ | ⟨hm, hmem⟩
  · refine iff_of_false (fun hf => ?_) fun hp => not_mem_of_mem_marker hmem hp.1
    have hunmarked := hf.1 hm
    rw [hl] at hunmarked
    cases hunmarked
  · have hten : e.marker.toLower ≠ 'e' := by
      rw [hm]
      decide
    exact ⟨fun hf => ⟨hmem, hf.2 hm⟩, fun hp => ⟨fun hm' => absurd hm' hten, fun _ => hp.2⟩⟩

/-- The digits of an exponent are decimal whatever the base of the numeral is. -/
theorem Formed.isRun_exponent (h : n.Formed) {e : Exponent} (he : e ∈ n.exponent)
    (hrun : IsRun (n.base.takes ·) e.digits) :
    IsRun (· ∈ Base.decimal.digits.toList) e.digits := by
  refine hrun.imp fun c hc htakes => ?_
  have hsep : c ≠ '_' := by
    rintro rfl
    exact n.base.takes_separator htakes
  have hdecimal := (inRun_iff.1 ((h.exponent e he).digits c hc)).resolve_left hsep
  exact (congrFun (Base.takes_eq_decimal (b := .decimal) nofun) c).mp hdecimal

theorem isInteger_iff : n.isInteger = true ↔
    n.fraction = none ∧ n.exponent = none ∧ n.imaginary = false := by
  simp [isInteger, and_assoc]

theorem Formed.base_of_unmarked (h : n.Formed) (hl : n.lead.isMarked = false) :
    n.base ≠ .hexadecimal := by
  rcases h.lead_cases with ⟨l, hmarked, -⟩ | ⟨-, hbase, -⟩
  · rw [hmarked] at hl
    cases hl
  · exact hbase

theorem ne_zero_of_marked (hl : n.lead.isMarked = true) : n.lead ≠ .zero := by
  intro hzero
  rw [hzero] at hl
  cases hl

/-- Outside base sixteen no digit is the letter of an exponent. -/
theorem Formed.inRun_marker (h : n.Formed) (hb : n.base ≠ .hexadecimal) :
    ∀ e ∈ n.exponent, inRun n.base e.marker = false := by
  intro e he
  have hsep : e.marker ≠ '_' := by
    simpa using h.of_marker (fun c => c == '_') (by decide) e he
  rw [inRun_eq_false, Base.takes_eq_isDigit hb]
  exact ⟨hsep, h.of_marker Char.isDigit (by decide) e he⟩

theorem inRun_marker_of_two {e : Exponent} (he : n.exponent = some e)
    (hp : e.marker ∈ "pP".toList) : ∀ e ∈ n.exponent, inRun n.base e.marker = false := by
  intro e' he'
  cases he.symm.trans he'
  have hall : ∀ c ∈ "pP".toList, inRun n.base c = false :=
    forall_mem_of_all (by cases n.base <;> decide)
  exact hall e.marker hp

/-- Without the letter of a base all parts have decimal digits. -/
theorem Formed.faultless_unmarked (h : n.Formed) (hl : n.lead.isMarked = false) :
    n.fault? = none ↔ IsRun (· ∈ Base.decimal.digits.toList) (n.lead.text ++ n.whole) ∧
      (∀ ds ∈ n.fraction, ds = [] ∨ IsRun (· ∈ Base.decimal.digits.toList) ds) ∧
      (∀ e ∈ n.exponent, e.Suits "eE") ∧
      (n.isInteger = true → ∀ c ∈ n.whole, isStray n.base c = false) := by
  have hbase := h.base_of_unmarked hl
  have htakes := Base.takes_eq_decimal hbase
  have hu : '_' ∉ Base.decimal.digits.toList := by decide
  rw [fault?_eq_none, h.misplaced?_eq_none (h.inRun_marker hbase), exponentFault_eq_none,
    digitFault_eq_none]
  constructor
  · rintro ⟨-, -, ⟨hexponent, -⟩, hstray, hseparated⟩
    have hwhole := (isWhole_unmarked hl).1 hseparated.whole
    have hfraction := hseparated.fraction
    rw [htakes] at hwhole hfraction
    refine ⟨hwhole, hfraction, fun e he => ?_, hstray⟩
    obtain ⟨hfits, hany⟩ := hexponent e he
    have hrun := (hseparated.exponent e he).resolve_left (ne_nil_of_hasDigit hany)
    exact ⟨(h.fits_unmarked he hl hbase).1 hfits, (h.exponent e he).sign, h.isRun_exponent he hrun⟩
  · rintro ⟨hwhole, hfraction, hexponent, hstray⟩
    rw [pointFault_eq_none, digitsFault_eq_none]
    refine ⟨by simp [hl], ?_, ⟨fun e he => ?_, fun _ _ => hbase⟩, hstray,
      (isWhole_unmarked hl).2 ?_, ?_, ?_⟩
    · cases hlead : n.lead with
      | zero => exact Or.inl rfl
      | plain =>
        rw [hlead] at hwhole
        exact Or.inr (Or.inl (hwhole.hasDigit hu))
      | marked l =>
        rw [hlead] at hl
        cases hl
    · obtain ⟨hmarker, -, hdigits⟩ := hexponent e he
      exact ⟨(h.fits_unmarked he hl hbase).2 hmarker, hdigits.hasDigit hu⟩
    · rwa [htakes]
    · rwa [htakes]
    · rw [htakes]
      exact fun e he => Or.inr (hexponent e he).digits

theorem Formed.faultless_marked_integer (h : n.Formed) (hl : n.lead.isMarked = true)
    (hi : n.isInteger = true) : n.fault? = none ↔
      Separated (· ∈ n.base.digits.toList) n.whole ∧ n.whole ≠ [] := by
  obtain ⟨hfraction, hexponent, -⟩ := isInteger_iff.1 hi
  have hmarker : ∀ e ∈ n.exponent, inRun n.base e.marker = false := by simp [hexponent]
  rw [fault?_eq_none, h.misplaced?_eq_none hmarker, pointFault_eq_none, digitsFault_eq_none,
    exponentFault_eq_none, digitFault_eq_none]
  constructor
  · rintro ⟨-, hdigits, -, hstray, hseparated⟩
    have hwhole := (isWhole_marked hl).1 hseparated.whole
    rw [hfraction] at hdigits
    have hany := (hdigits.resolve_left (ne_zero_of_marked hl)).resolve_right nofun
    exact ⟨hwhole.digits (hstray hi), ne_nil_of_hasDigit hany⟩
  · rintro ⟨hdigits, hne⟩
    have htakes := hdigits.takes
    exact ⟨by simp [hfraction], Or.inr (Or.inl (htakes.hasDigit n.base.takes_separator hne)),
      ⟨by simp [hexponent], by simp [hfraction]⟩, fun _ => hdigits.isStray,
      (isWhole_marked hl).2 htakes, by simp [hfraction], by simp [hexponent]⟩

theorem Formed.faultless_marked_float (h : n.Formed) (hl : n.lead.isMarked = true)
    (hi : n.isInteger = false) (him : n.imaginary = false) : n.fault? = none ↔
      n.base = .hexadecimal ∧ Separated (· ∈ Base.hexadecimal.digits.toList) n.whole ∧
        (n.whole ≠ [] ∨ ∃ ds ∈ n.fraction, ds ≠ []) ∧
        (∀ ds ∈ n.fraction, ds = [] ∨ IsRun (· ∈ Base.hexadecimal.digits.toList) ds) ∧
        ∃ e, n.exponent = some e ∧ e.Suits "pP" := by
  constructor
  · intro hnone
    obtain ⟨hpoint, hdigits, hfault, hstray, hmisplaced⟩ := fault?_eq_none.1 hnone
    have hmisshape := misshape?_eq_none.2 ⟨hpoint, hdigits, hfault, hstray⟩
    obtain ⟨hb, e, he⟩ := Literal.base_of_faultless h him hi hmisshape hl
    obtain ⟨hfits, hany⟩ := (exponentFault_eq_none.1 hfault).1 e he
    have hp := ((h.fits_marked he hl).1 hfits).1
    have hseparated := (h.misplaced?_eq_none (inRun_marker_of_two he hp)).1 hmisplaced
    have hsome : n.whole ≠ [] ∨ ∃ ds ∈ n.fraction, ds ≠ [] := by
      refine ((digitsFault_eq_none.1 hdigits).resolve_left (ne_zero_of_marked hl)).imp
        ne_nil_of_hasDigit fun hf => ?_
      obtain ⟨ds, hds, hdigit⟩ := (Option.any_eq_true hasDigit n.fraction).1 hf
      exact ⟨ds, hds, ne_nil_of_hasDigit hdigit⟩
    have hwhole := (isWhole_marked hl).1 hseparated.whole
    have hfraction := hseparated.fraction
    have hrun := (hseparated.exponent e he).resolve_left (ne_nil_of_hasDigit hany)
    rw [hb, Base.takes_eq_hexadecimal] at hwhole hfraction
    exact ⟨hb, hwhole, hsome, hfraction, e, he, hp, (h.exponent e he).sign,
      h.isRun_exponent he hrun⟩
  · rintro ⟨hb, hwhole, hsome, hfraction, e, he, hp, hsign, hrun⟩
    have hu : '_' ∉ Base.hexadecimal.digits.toList := by decide
    have hfits := (h.fits_marked he hl).2 ⟨hp, hb⟩
    rw [fault?_eq_none, h.misplaced?_eq_none (inRun_marker_of_two he hp), pointFault_eq_none,
      digitsFault_eq_none, exponentFault_eq_none, digitFault_eq_none, he]
    refine ⟨fun _ _ => hb, Or.inr ?_, ⟨?_, nofun⟩, by simp [hi], (isWhole_marked hl).2 ?_, ?_, ?_⟩
    · refine hsome.imp (hwhole.hasDigit hu) ?_
      rintro ⟨ds, hds, hne⟩
      exact (Option.any_eq_true hasDigit n.fraction).2
        ⟨ds, hds, ((hfraction ds hds).resolve_left hne).hasDigit hu⟩
    · rintro _ ⟨⟩
      exact ⟨hfits, hrun.hasDigit (by decide)⟩
    · rwa [hb, Base.takes_eq_hexadecimal]
    · rwa [hb, Base.takes_eq_hexadecimal]
    · intro e' he'
      cases he.symm.trans he'
      have hall : ∀ c ∈ Base.decimal.digits.toList, c ∈ Base.hexadecimal.digits.toList :=
        forall_mem_of_all (by decide)
      rw [hb, Base.takes_eq_hexadecimal]
      exact Or.inr (hrun.imp fun c _ => hall c)

/-! ## The languages of the kinds -/

/-- Digits without a mark.  A zero that comes first is the lead. -/
def unmarked (c : Char) (cs : List Char) (fraction : Option (List Char))
    (exponent : Option Exponent) : Numeral :=
  if c = '0' then ⟨.zero, cs, fraction, exponent, false⟩
  else ⟨.plain, c :: cs, fraction, exponent, false⟩

def marked (l : Char) (cs : List Char) (fraction : Option (List Char))
    (exponent : Option Exponent) : Numeral :=
  ⟨.marked l, cs, fraction, exponent, false⟩

section Builders

variable {c l : Char} {cs : List Char} {fraction : Option (List Char)} {exponent : Option Exponent}

theorem unmarked_spec (c : Char) (cs : List Char) (fraction : Option (List Char))
    (exponent : Option Exponent) : let n := unmarked c cs fraction exponent
    n.lead.isMarked = false ∧ n.lead.text ++ n.whole = c :: cs ∧ n.fraction = fraction ∧
      n.exponent = exponent ∧ n.imaginary = false := by
  unfold unmarked
  split
  · next hc => exact ⟨rfl, by rw [hc]; rfl, rfl, rfl, rfl⟩
  · exact ⟨rfl, rfl, rfl, rfl, rfl⟩

theorem text_unmarked (c : Char) (cs : List Char) (fraction : Option (List Char))
    (exponent : Option Exponent) : (unmarked c cs fraction exponent).text =
      c :: cs ++ (pointed fraction ++ exponent.elim [] Exponent.text) := by
  obtain ⟨-, hwhole, hfraction, hexponent, himaginary⟩ := unmarked_spec c cs fraction exponent
  rw [text_eq, ← List.append_assoc, hwhole, hfraction, ending, hexponent, himaginary, imaginaryMark,
    List.append_nil]

theorem formed_unmarked (hcs : IsRun (· ∈ Base.decimal.digits.toList) (c :: cs))
    (hfraction : ∀ ds ∈ fraction, ds = [] ∨ IsRun (· ∈ Base.decimal.digits.toList) ds)
    (hexponent : ∀ e ∈ exponent, e.Suits "eE") : (unmarked c cs fraction exponent).Formed := by
  have hwhole := hcs.separated.inRun
  have hpoint := inRun_of_fraction hfraction
  have hformed : ∀ e ∈ exponent, e.Formed := fun e he =>
    (hexponent e he).formed (forall_mem_of_all (by decide))
  unfold unmarked
  split
  · exact ⟨nofun, nofun, fun c hc => inRun_of_decimal (hwhole c (List.mem_cons_of_mem _ hc)),
      fun ds hds c hc => inRun_of_decimal (hpoint ds hds c hc), hformed⟩
  · next hne =>
    have hdigit : c.isDigit = true := Base.takes_of_digits (b := .decimal) (isRun_cons.1 hcs).1
    exact ⟨nofun, fun _ => ⟨c, cs, rfl, hdigit, hne⟩, hwhole, hpoint, hformed⟩

theorem base_marked {b : Base} (hl : l ∈ b.letters.toList) (cs : List Char)
    (fraction : Option (List Char)) (exponent : Option Exponent) :
    (marked l cs fraction exponent).base = b := by
  have hletter := Base.ofLetter?_iff.2 hl
  simp [marked, base, Lead.base, hletter]

theorem formed_marked {b : Base} (hl : l ∈ b.letters.toList)
    (hcs : Separated (· ∈ b.digits.toList) cs)
    (hfraction : ∀ ds ∈ fraction, ds = [] ∨ IsRun (· ∈ b.digits.toList) ds)
    (hexponent : ∀ e ∈ exponent, e.Suits "pP") : (marked l cs fraction exponent).Formed := by
  have hbase := base_marked hl cs fraction exponent
  refine ⟨?_, nofun, ?_, ?_, fun e he => (hexponent e he).formed (forall_mem_of_all (by decide))⟩
  · rintro _ ⟨⟩
    rw [Base.ofLetter?_iff.2 hl]
    rfl
  · rw [hbase]
    exact hcs.inRun
  · rw [hbase]
    exact inRun_of_fraction hfraction

theorem text_marked (l : Char) (cs : List Char) (fraction : Option (List Char))
    (exponent : Option Exponent) : (marked l cs fraction exponent).text =
      '0' :: l :: (cs ++ (pointed fraction ++ exponent.elim [] Exponent.text)) := by
  rw [text_eq, ending, marked, imaginaryMark, List.append_nil]
  rfl

end Builders

theorem text_of_isInteger (hi : n.isInteger = true) : n.text = n.lead.text ++ n.whole := by
  obtain ⟨hfraction, hexponent, himaginary⟩ := isInteger_iff.1 hi
  rw [text_eq, ending, hfraction, hexponent, himaginary]
  simp [pointed, imaginaryMark]

theorem Formed.integer_unmarked (h : n.Formed) (hl : n.lead.isMarked = false)
    (hi : n.isInteger = true) (hnone : n.fault? = none) :
    (∃ c cs, c ∈ "123456789".toList ∧ Separated (· ∈ Base.decimal.digits.toList) cs ∧
      n.text = c :: cs) ∨
    ∃ cs, Separated (· ∈ Base.octal.digits.toList) cs ∧ n.text = '0' :: cs := by
  obtain ⟨hrun, -, -, hstray⟩ := (h.faultless_unmarked hl).1 hnone
  rw [text_of_isInteger hi]
  cases hlead : n.lead with
  | plain =>
    obtain ⟨c, cs, hw, -, hne⟩ := h.plain hlead
    rw [hlead, hw] at hrun
    obtain ⟨hc, hcs⟩ := isRun_cons.1 hrun
    have hall : ∀ c ∈ Base.decimal.digits.toList, c ≠ '0' → c ∈ "123456789".toList :=
      forall_mem_of_all (by decide)
    exact Or.inl ⟨c, cs, hall c hc hne, hcs, by rw [hw]; rfl⟩
  | zero =>
    have hbase : n.base = .octal := by
      unfold base
      rw [hlead]
      rfl
    rw [hlead] at hrun
    rw [hbase] at hstray
    exact Or.inr ⟨n.whole, (isRun_cons.1 hrun).2.takes.digits (hstray hi), rfl⟩
  | marked l =>
    rw [hlead] at hl
    cases hl

/-- Integers with decimal digits that are digits of their base. -/
theorem exists_integer_unmarked {c : Char} {cs : List Char}
    (hrun : IsRun (· ∈ Base.decimal.digits.toList) (c :: cs))
    (hstray : ∀ d ∈ (unmarked c cs none none).whole,
      isStray (unmarked c cs none none).base d = false) :
    ∃ n : Numeral, n.Formed ∧ n.isInteger = true ∧ n.fault? = none ∧ n.text = c :: cs := by
  have hformed : (unmarked c cs none none).Formed := formed_unmarked hrun nofun nofun
  obtain ⟨hl, hwhole, hfraction, hexponent, himaginary⟩ := unmarked_spec c cs none none
  refine ⟨_, hformed, isInteger_iff.2 ⟨hfraction, hexponent, himaginary⟩,
    (hformed.faultless_unmarked hl).2 ⟨?_, ?_, ?_, fun _ => hstray⟩, ?_⟩
  · rwa [hwhole]
  · rw [hfraction]
    nofun
  · rw [hexponent]
    nofun
  · simp [text_unmarked, pointed]

/-- The texts of faultless integers are a regular language. -/
theorem mem_integer {w : List Char} : w ∈ Lexical.integer.matches' ↔
    ∃ n : Numeral, n.Formed ∧ n.isInteger = true ∧ n.fault? = none ∧ n.text = w := by
  rw [Lexical.mem_integer]
  constructor
  · rintro (⟨c, cs, hc, hcs, rfl⟩ | ⟨cs, hcs, rfl⟩ | ⟨b, l, cs, hl, hcs, hne, rfl⟩)
    · have hall : ∀ c ∈ "123456789".toList, c ∈ Base.decimal.digits.toList ∧ c ≠ '0' :=
        forall_mem_of_all (by decide)
      have hrun := isRun_cons.2 ⟨(hall c hc).1, hcs⟩
      refine exists_integer_unmarked hrun ?_
      rw [unmarked, if_neg (hall c hc).2]
      exact hrun.separated.isStray
    · have hall : ∀ c ∈ Base.octal.digits.toList, c ∈ Base.decimal.digits.toList :=
        forall_mem_of_all (by decide)
      have hrun := isRun_cons.2 ⟨hall '0' (by decide), hcs.imp fun c _ => hall c⟩
      exact exists_integer_unmarked hrun hcs.isStray
    · have hformed : (marked l cs none none).Formed := formed_marked hl hcs nofun nofun
      refine ⟨_, hformed, rfl, (hformed.faultless_marked_integer rfl rfl).2 ?_, ?_⟩
      · rw [base_marked hl cs none none]
        exact ⟨hcs, hne⟩
      · simp [text_marked, pointed]
  · rintro ⟨n, h, hi, hnone, rfl⟩
    rcases h.lead_cases with ⟨l, hl, hb⟩ | ⟨hl, -⟩
    · have hmarked : n.lead.isMarked = true := by
        rw [hl]
        rfl
      obtain ⟨hcs, hne⟩ := (h.faultless_marked_integer hmarked hi).1 hnone
      refine Or.inr (Or.inr ⟨n.base, l, n.whole, Base.ofLetter?_iff.1 hb, hcs, hne, ?_⟩)
      rw [text_of_isInteger hi, hl]
      rfl
    · exact (h.integer_unmarked hl hi hnone).imp_right Or.inl

/-- The texts of faultless floats are a regular language. -/
theorem mem_float {w : List Char} : w ∈ Lexical.float.matches' ↔
    ∃ n : Numeral, n.Formed ∧ n.isInteger = false ∧ n.imaginary = false ∧ n.fault? = none ∧
      n.text = w := by
  rw [Lexical.mem_float]
  constructor
  · rintro (⟨cs, fraction, exponent, hcs, hfraction, hexponent, hany, rfl⟩ |
      ⟨l, cs, fraction, e, hl, hcs, hsome, hfraction, he, rfl⟩)
    · obtain ⟨c, cs, rfl, hc, hcs⟩ := hcs
      have hrun := isRun_cons.2 ⟨hc, hcs⟩
      have hformed := formed_unmarked hrun hfraction hexponent
      obtain ⟨hl, hw, hf, he, him⟩ := unmarked_spec c cs fraction exponent
      have hi : (unmarked c cs fraction exponent).isInteger = false := by
        rw [Bool.eq_false_iff, Ne, isInteger_iff, hf, he]
        tauto
      refine ⟨_, hformed, hi, him, (hformed.faultless_unmarked hl).2 ⟨?_, ?_, ?_, ?_⟩,
        text_unmarked c cs fraction exponent⟩
      · rwa [hw]
      · rwa [hf]
      · rwa [he]
      · rw [hi]
        nofun
    · have hsuits : ∀ e' ∈ some e, e'.Suits "pP" := by
        rintro _ ⟨⟩
        exact he
      have hformed := formed_marked hl hcs hfraction hsuits
      have hi : (marked l cs fraction (some e)).isInteger = false := by simp [isInteger, marked]
      refine ⟨_, hformed, hi, rfl, (hformed.faultless_marked_float rfl hi rfl).2 ?_,
        text_marked l cs fraction (some e)⟩
      exact ⟨base_marked hl cs fraction (some e), hcs, hsome, hfraction, e, rfl, he⟩
  · rintro ⟨n, h, hi, him, hnone, rfl⟩
    rcases h.lead_cases with ⟨l, hl, hb⟩ | ⟨hl, -⟩
    · have hmarked : n.lead.isMarked = true := by
        rw [hl]
        rfl
      obtain ⟨hbase, hcs, hsome, hfraction, e, he, hsuits⟩ :=
        (h.faultless_marked_float hmarked hi him).1 hnone
      rw [hbase] at hb
      refine Or.inr ⟨l, n.whole, n.fraction, e, Base.ofLetter?_iff.1 hb, hcs, hsome, hfraction,
        hsuits, ?_⟩
      rw [text_eq, ending, hl, he, him, imaginaryMark, List.append_nil]
      rfl
    · obtain ⟨hcs, hfraction, hexponent, -⟩ := (h.faultless_unmarked hl).1 hnone
      refine Or.inl ⟨_, n.fraction, n.exponent, hcs, hfraction, hexponent, ?_, ?_⟩
      · have hany := mt isInteger_iff.2 (Bool.eq_false_iff.1 hi)
        tauto
      · rw [text_eq, ending, him, imaginaryMark, List.append_nil, List.append_assoc]

/-! ## Numerals that were read -/

/-- Without a fault the letter of the exponent ends the digits. -/
theorem Formed.marker_of_faultless (h : n.Formed) (hi : n.isInteger = false)
    (him : n.imaginary = false) (hnone : n.fault? = none) :
    ∀ e ∈ n.exponent, inRun n.base e.marker = false := by
  cases hl : n.lead.isMarked with
  | true =>
    obtain ⟨-, -, -, -, e, he, hsuits⟩ := (h.faultless_marked_float hl hi him).1 hnone
    exact inRun_marker_of_two he hsuits.marker
  | false => exact h.inRun_marker (h.base_of_unmarked hl)

section Read

variable (h : n.Formed) (hread : read n.text = (n, []))

include h hread

/-- An integer has no fault exactly if its text matches.  What else has this text is the
numeral itself, since it is read as that. -/
theorem Formed.integer_faultless_iff (hi : n.isInteger = true) :
    n.fault? = none ↔ n.text ∈ Lexical.integer.matches' := by
  rw [mem_integer]
  constructor
  · exact fun hnone => ⟨n, h, hi, hnone, rfl⟩
  · rintro ⟨m, hm, hmi, hnone, htext⟩
    have hmarker : ∀ e ∈ m.exponent, inRun m.base e.marker = false := by
      rw [(isInteger_iff.1 hmi).2.1]
      nofun
    have hsame := hm.read_text hmarker
    rw [htext, hread] at hsame
    rwa [(Prod.mk.inj hsame).1]

theorem Formed.float_faultless_iff (hi : n.isInteger = false) (him : n.imaginary = false) :
    n.fault? = none ↔ n.text ∈ Lexical.float.matches' := by
  rw [mem_float]
  constructor
  · exact fun hnone => ⟨n, h, hi, him, hnone, rfl⟩
  · rintro ⟨m, hm, hmi, hmim, hnone, htext⟩
    have hsame := hm.read_text (hm.marker_of_faultless hmi hmim hnone)
    rw [htext, hread] at hsame
    rwa [(Prod.mk.inj hsame).1]

end Read

/-- Behind the runes `before`, each of one byte, the text has a decimal digit that the base does
not have, and it has none such before. -/
structure FirstStray (b : Base) (text : List Char) (before : List Char) (digit : Char) : Prop where
  text_eq : ∃ behind, text = before ++ digit :: behind
  isDigit : digit.isDigit = true
  stray : b.digit? digit = none
  first : ∀ c ∈ before, c.isDigit = true → (b.digit? c).isSome = true
  narrow : ∀ c ∈ before, c.utf8Size = 1

theorem utf8Size_of_inRun {b : Base} {c : Char} (h : inRun b c = true) : c.utf8Size = 1 := by
  rcases inRun_iff.1 h with rfl | hc
  · rfl
  · have hhex : isHexDigit c = true := by
      cases b with
      | hexadecimal => exact hc
      | _ => exact of_isDigit isHexDigit (by decide) hc
    simpa using of_isHexDigit (fun c => c.utf8Size == 1) (by decide) hhex

/-- The runes of the lead are of one byte, and the digits among them are digits of the base. -/
theorem Formed.lead_text (h : n.Formed) : ∀ c ∈ n.lead.text,
    c.utf8Size = 1 ∧ (c.isDigit = true → (n.base.digit? c).isSome = true) := by
  have hzero : (n.base.digit? '0').isSome = true := by cases n.base <;> decide
  rcases h.lead_cases with ⟨l, hl, hb⟩ | ⟨hl, -⟩
  · have hletter : ∀ l ∈ n.base.letters.toList, l.utf8Size = 1 ∧ l.isDigit = false :=
      forall_mem_of_all (by cases n.base <;> decide)
    obtain ⟨hsize, hdigit⟩ := hletter l (Base.ofLetter?_iff.1 hb)
    rw [hl]
    refine List.forall_mem_cons.2 ⟨⟨rfl, fun _ => hzero⟩, List.forall_mem_singleton.2 ⟨hsize, ?_⟩⟩
    rw [hdigit]
    nofun
  · cases hlead : n.lead with
    | plain => exact List.forall_mem_nil _
    | zero => exact List.forall_mem_singleton.2 ⟨rfl, fun _ => hzero⟩
    | marked l =>
      rw [hlead] at hl
      cases hl

theorem strayDigit_eq_digitFault {f : Fault} {digit : Char} {b : Base} (hf : n.fault? = some f)
    (hd : f.defect = .strayDigit digit b) : n.digitFault = some f := by
  have hne : ∀ {defect : Defect} {offset : Nat}, some (Fault.here defect offset) = some f →
      defect = .strayDigit digit b := by
    rintro defect offset ⟨⟩
    exact hd
  simp only [fault?, Option.orElse_eq_orElse, Option.orElse_eq_or, Option.or_eq_some_iff] at hf
  rcases hf with hf | ⟨-, hf | ⟨-, hf | ⟨-, hf | ⟨-, hf⟩⟩⟩⟩
  · unfold pointFault at hf
    split at hf
    · cases hne hf
    · cases hf
  · unfold digitsFault at hf
    split at hf
    · cases hf
    · cases hne hf
  · unfold exponentFault at hf
    split at hf
    · split at hf
      · cases hne hf
      split at hf
      · cases hne hf
      split at hf
      · cases hf
      · cases hne hf
    · split at hf
      · cases hne hf
      · cases hf
  · exact hf
  · obtain ⟨i, -, rfl⟩ := Option.map_eq_some_iff.1 hf
    cases hd

/-- The digit that is named is the first that the base does not have, and the offset is its own. -/
theorem Formed.firstStray (h : n.Formed) {f : Fault} {digit : Char} {b : Base}
    (hf : n.fault? = some f) (hd : f.defect = .strayDigit digit b) : n.isInteger = true ∧
      b = n.base ∧ ∃ before, FirstStray b n.text before digit ∧ f.offset = before.length := by
  have hfault := strayDigit_eq_digitFault hf hd
  unfold digitFault at hfault
  split at hfault
  swap
  · cases hfault
  next hi =>
  obtain ⟨d, hfind, rfl⟩ := Option.map_eq_some_iff.1 hfault
  cases hd
  obtain ⟨hstray, before, behind, hwhole, hbefore⟩ := List.find?_eq_some_iff_append.1 hfind
  have hrun : ∀ c ∈ before ++ digit :: behind, inRun n.base c = true := hwhole ▸ h.whole
  obtain ⟨hruns, hrest⟩ := List.forall_mem_append.1 hrun
  have hnone : n.base.digit? digit = none := by simpa using (Bool.and_eq_true_iff.1 hstray).2
  have hsome : ∀ c ∈ before, c = '_' ∨ (n.base.digit? c).isSome = true := by
    intro c hc
    have hno := isStray_eq_false.1 (by simpa using hbefore c hc)
    rwa [← Base.isSome_digit?_iff] at hno
  have hdigit : digit.isDigit = true := by
    have htakes := (inRun_iff.1 (hrest digit List.mem_cons_self)).resolve_left
      (by simpa using (Bool.and_eq_true_iff.1 hstray).1)
    cases hb : n.base with
    | hexadecimal =>
      rw [hb] at htakes hnone
      have hmem := (congrFun Base.takes_eq_hexadecimal digit).mp htakes
      rw [← Base.isSome_digit?_iff, hnone] at hmem
      cases hmem
    | _ =>
      rw [hb] at htakes
      exact htakes
  refine ⟨hi, rfl, n.lead.text ++ before, ⟨⟨behind, ?_⟩, hdigit, hnone, ?_, ?_⟩, ?_⟩
  · rw [text_of_isInteger hi, hwhole, List.append_assoc]
  · refine List.forall_mem_append.2 ⟨fun c hc => (h.lead_text c hc).2, fun c hc hcd => ?_⟩
    refine (hsome c hc).resolve_left ?_
    rintro rfl
    cases hcd
  · exact List.forall_mem_append.2 ⟨fun c hc => (h.lead_text c hc).1, fun c hc =>
      utf8Size_of_inRun (hruns c hc)⟩
  · have hidx : n.whole.findIdx (isStray n.base) = before.length := by
      have hno : before.findIdx (isStray n.base) = before.length :=
        List.findIdx_eq_length.2 fun c hc => by simpa using hbefore c hc
      rw [hwhole, List.findIdx_append, hno, if_neg (Nat.lt_irrefl _), List.findIdx_cons, hstray]
      exact Nat.zero_add _
    rw [hidx, List.length_append]

end Numeral

end FrontEnd
