import FrontEnd.Literal.Float
import FrontEnd.Proofs.Literal.Parts

/-!
# What numerals are converted to

The converters look at the text of a literal anew.  Without its separators the text of a
numeral has the parts of the numeral, so the converters find the base and the digits that
were read, and a numeral whose parts are in order is never malformed to them.
-/

namespace FrontEnd
namespace Literal

theorem digitsFrom_malformed {b : Base} {limit n : Nat} {ds : List Char}
    (h : digitsFrom b limit n ds = .error .malformed) : ∃ c ∈ ds, b.digit? c = none := by
  induction ds generalizing n with
  | nil => cases h
  | cons c ds ih =>
    unfold digitsFrom at h
    cases hc : b.digit? c with
    | none => exact ⟨c, List.mem_cons_self, hc⟩
    | some d =>
      rw [hc] at h
      dsimp only at h
      split at h
      · obtain ⟨c', hc', hnone⟩ := ih h
        exact ⟨c', List.mem_cons_of_mem _ hc', hnone⟩
      · cases h

theorem digitsValue_malformed {b : Base} {limit : Nat} {ds : List Char}
    (h : digitsValue b limit ds = .error .malformed) : ds = [] ∨ ∃ c ∈ ds, b.digit? c = none := by
  unfold digitsValue at h
  by_cases hds : ds = []
  · exact Or.inl hds
  · rw [if_neg hds] at h
    exact Or.inr (digitsFrom_malformed h)

theorem withoutSeparators_append (as bs : List Char) :
    withoutSeparators (as ++ bs) = withoutSeparators as ++ withoutSeparators bs :=
  List.filter_append as bs

theorem withoutSeparators_cons {c : Char} (h : c ≠ '_') (cs : List Char) :
    withoutSeparators (c :: cs) = c :: withoutSeparators cs :=
  List.filter_cons_of_pos (by simpa using h)

theorem mem_withoutSeparators {c : Char} {cs : List Char} :
    c ∈ withoutSeparators cs ↔ c ∈ cs ∧ c ≠ '_' := by
  simp [withoutSeparators]

theorem withoutSeparators_ne_nil {run : List Char} :
    withoutSeparators run ≠ [] ↔ Numeral.hasDigit run = true := by
  simp [withoutSeparators, Numeral.hasDigit]

/-- The runes of a run that count are digits of its kind. -/
theorem takes_of_mem {b : Base} {run : List Char} (h : ∀ c ∈ run, inRun b c = true) {c : Char}
    (hc : c ∈ withoutSeparators run) : b.takes c = true := by
  obtain ⟨hc, hne⟩ := mem_withoutSeparators.1 hc
  simpa [inRun, hne] using h c hc

theorem ne_separator_of_isDigit {c : Char} (h : c.isDigit = true) : c ≠ '_' := by
  rintro rfl
  cases h

/-! ## Integers -/

theorem text_of_isInteger {n : Numeral} (hi : n.isInteger = true) :
    n.text = n.lead.text ++ n.whole := by
  simp only [Numeral.isInteger, Bool.and_eq_true, Bool.not_eq_true',
    Option.isNone_iff_eq_none] at hi
  obtain ⟨⟨hf, he⟩, hn⟩ := hi
  simp [Numeral.text, Numeral.magnitude, Numeral.mantissa, hf, he, hn, Numeral.pointed,
    Numeral.imaginaryMark]

/-- The digits of an integer are found, and a zero that is alone is one. -/
theorem integerDigits_text {n : Numeral} (h : n.Formed) (hi : n.isInteger = true) :
    integerDigits (withoutSeparators n.text) =
      if n.lead = .zero ∧ withoutSeparators n.whole = [] then (.decimal, ['0'])
      else (n.base, withoutSeparators n.whole) := by
  rw [text_of_isInteger hi, withoutSeparators_append]
  unfold Numeral.base
  cases hl : n.lead with
  | plain =>
    obtain ⟨c, cs, hw, hc, hne⟩ := h.plain hl
    have hread : Lead.read (c :: withoutSeparators cs) = .plain :=
      Lead.read_plain (by rintro d ⟨⟩; simpa using hne)
    rw [hw, withoutSeparators_cons (ne_separator_of_isDigit hc), if_neg (by simp)]
    show integerDigits (c :: withoutSeparators cs) = _
    unfold integerDigits
    rw [if_neg (by simp [hne]), hread]
    rfl
  | zero =>
    have hdigits : ∀ c ∈ withoutSeparators n.whole, c.isDigit = true := by
      have hrun := h.whole
      unfold Numeral.base at hrun
      rw [hl] at hrun
      exact fun c hc => takes_of_mem hrun hc
    show integerDigits ('0' :: withoutSeparators n.whole) = _
    unfold integerDigits
    cases hw : withoutSeparators n.whole with
    | nil => rfl
    | cons d ds =>
      have hd : d.isDigit = true := hdigits d (hw ▸ List.mem_cons_self)
      have hread : Lead.read ('0' :: d :: ds) = .zero :=
        Lead.read_zero (by rintro e ⟨⟩; exact Base.ofLetter?_of_isDigit hd)
      rw [if_neg (by simp), hread, if_neg (by simp)]
      rfl
  | marked l =>
    have hletter := h.lead l hl
    have hne : l ≠ '_' := by
      rintro rfl
      cases hletter
    have htext : withoutSeparators (Lead.marked l).text = ['0', l] := by
      simp [Lead.text, withoutSeparators, hne]
    have hread := Lead.read_marked hletter (withoutSeparators n.whole)
    rw [htext, if_neg (by simp)]
    show integerDigits ('0' :: l :: withoutSeparators n.whole) = _
    unfold integerDigits
    rw [if_neg (by simp), hread]
    rfl

/-- An integer without a fault in its digits has a value, or too large a one. -/
theorem integerValue_ne_malformed {n : Numeral} (h : n.Formed) (hi : n.isInteger = true)
    (hm : n.misshape? = none) : integerValue (String.ofList n.text) ≠ .error .malformed := by
  obtain ⟨-, hdigits, -, hstray⟩ := Numeral.misshape?_eq_none.1 hm
  intro hv
  unfold integerValue at hv
  dsimp only at hv
  rw [String.toList_ofList, integerDigits_text h hi] at hv
  by_cases hzero : n.lead = .zero ∧ withoutSeparators n.whole = []
  · rw [if_pos hzero] at hv
    cases hv
  · rw [if_neg hzero] at hv
    rcases digitsValue_malformed hv with hnil | ⟨c, hc, hnone⟩
    · have hwhole : Numeral.hasDigit n.whole = false := by
        rw [← Bool.not_eq_true, ← withoutSeparators_ne_nil]
        exact fun hne => hne hnil
      have hlead : n.lead ≠ .zero := fun hl => hzero ⟨hl, hnil⟩
      have hfraction : n.fraction = none := by
        simp only [Numeral.isInteger, Bool.and_eq_true, Option.isNone_iff_eq_none] at hi
        exact hi.1.1
      simp [Numeral.digitsFault, hwhole, hlead, hfraction] at hdigits
    · obtain ⟨hmem, hne⟩ := mem_withoutSeparators.1 hc
      rw [Numeral.digitFault, if_pos hi, Option.map_eq_none_iff, List.find?_eq_none] at hstray
      exact hstray c hmem (by simp [Numeral.isStray, hne, hnone])

/-! ## Floats -/

def cleaned (cs : List Char) : List Char :=
  (withoutSeparators cs).map Char.toLower

theorem cleaned_append (as bs : List Char) : cleaned (as ++ bs) = cleaned as ++ cleaned bs := by
  rw [cleaned, withoutSeparators_append, List.map_append]
  rfl

theorem cleaned_cons {c : Char} (h : c ≠ '_') (cs : List Char) :
    cleaned (c :: cs) = c.toLower :: cleaned cs := by
  rw [cleaned, withoutSeparators_cons h, List.map_cons]
  rfl

theorem isDigit_of_mem_cleaned {b : Base} (hb : b ≠ .hexadecimal) {run : List Char}
    (h : ∀ c ∈ run, inRun b c = true) {c : Char} (hc : c ∈ cleaned run) : c.isDigit = true := by
  obtain ⟨d, hd, rfl⟩ := List.mem_map.1 hc
  have hdigit := takes_of_mem h hd
  rw [Base.takes_eq_isDigit hb] at hdigit
  exact of_isDigit (fun d => d.toLower.isDigit) (by decide) hdigit

theorem isHexDigit_of_mem_cleaned {run : List Char} (h : ∀ c ∈ run, inRun .hexadecimal c = true)
    {c : Char} (hc : c ∈ cleaned run) : isHexDigit c = true := by
  obtain ⟨d, hd, rfl⟩ := List.mem_map.1 hc
  exact of_isHexDigit (fun d => isHexDigit d.toLower) (by decide) (takes_of_mem h hd)

theorem cleaned_ne_nil {run : List Char} (h : Numeral.hasDigit run = true) : cleaned run ≠ [] := by
  rw [cleaned, Ne, List.map_eq_nil_iff]
  exact withoutSeparators_ne_nil.2 h

theorem cleaned_pointed (f : Option (List Char)) :
    cleaned (Numeral.pointed f) = Numeral.pointed (f.map cleaned) := by
  cases f with
  | none => rfl
  | some ds => exact cleaned_cons (by decide) ds

theorem not_mem_pointed {p : Char → Bool} {c : Char} (hne : c ≠ '.') (hc : p c = false)
    {f : Option (List Char)} (hf : ∀ ds ∈ f, ∀ d ∈ ds, p d = true) : c ∉ Numeral.pointed f := by
  cases f with
  | none => exact List.not_mem_nil
  | some ds => exact List.not_mem_cons_of_ne_of_not_mem hne (not_mem_of_run hc (hf ds rfl))

theorem cleaned_exponent {e : Exponent} (h : e.Formed) :
    cleaned e.text = e.marker.toLower :: (e.sign.toList ++ cleaned e.digits) := by
  have hmarker : e.marker ≠ '_' := by
    intro hm
    have hmark := h.marker
    rw [hm] at hmark
    cases hmark
  have hsign : cleaned e.sign.toList = e.sign.toList := by
    cases hs : e.sign with
    | none => rfl
    | some c => rcases h.sign c hs with rfl | rfl <;> rfl
  rw [Exponent.text, cleaned_cons hmarker, cleaned_append, hsign]

theorem isDigit_of_mem_exponent {e : Exponent} (h : e.Formed) :
    ∀ c ∈ cleaned e.digits, c.isDigit = true :=
  fun _ => isDigit_of_mem_cleaned (b := .decimal) (by decide) h.digits

theorem not_mem_exponent {e : Exponent} (h : e.Formed) {c : Char} (hm : c ≠ e.marker.toLower)
    (hs : c ≠ '+' ∧ c ≠ '-') (hd : c.isDigit = false) : c ∉ cleaned e.text := by
  rw [cleaned_exponent h, List.mem_cons, List.mem_append, not_or, not_or]
  refine ⟨hm, fun hc => ?_, not_mem_of_run (p := Char.isDigit) hd (isDigit_of_mem_exponent h)⟩
  exact (h.sign c (Option.mem_toList.1 hc)).elim hs.1 hs.2

theorem splitSign_append {sign : Option Char} (hs : ∀ c ∈ sign, c = '+' ∨ c = '-') {ds : List Char}
    (hds : ∀ c ∈ ds, c.isDigit = true) :
    Double.splitSign (sign.toList ++ ds) = (decide (sign = some '-'), ds) := by
  cases sign with
  | some c => rcases hs c rfl with rfl | rfl <;> rfl
  | none =>
    cases ds with
    | nil => rfl
    | cons d ds =>
      have hd := hds d List.mem_cons_self
      have hne : d ≠ '-' ∧ d ≠ '+' := by constructor <;> (rintro rfl; cases hd)
      simp [Double.splitSign, hne]

theorem finite_ne_malformed (x : Double) : finite x ≠ .error .malformed := by
  unfold finite
  split <;> nofun

/-! ### Hexadecimal floats -/

theorem cut_append {sep : Char} {as : List Char} (h : sep ∉ as) (bs : List Char) :
    cut sep (as ++ sep :: bs) = some (as, bs) := by
  have has : ∀ c ∈ as, (decide (c ≠ sep)) = true := by
    intro c hc
    exact decide_eq_true fun he => h (he ▸ hc)
  have hsep : ∀ c, (sep :: bs).head? = some c → decide (c ≠ sep) = false := by
    rintro c ⟨⟩
    simp
  unfold cut
  rw [takeWhile_append_head has hsep, dropWhile_append_head has hsep]

theorem cut_none {sep : Char} {as : List Char} (h : sep ∉ as) : cut sep as = none := by
  have has : as.dropWhile (fun c => decide (c ≠ sep)) = [] := by
    rw [List.dropWhile_eq_nil_iff]
    exact fun c hc => decide_eq_true fun he => h (he ▸ hc)
  unfold cut
  rw [has]

theorem mapM_digit? {cs : List Char} (h : ∀ c ∈ cs, isHexDigit c = true) :
    cs.mapM Base.hexadecimal.digit? = some (cs.map hexDigitValue) := by
  induction cs with
  | nil => rfl
  | cons c cs ih =>
    obtain ⟨hc, hcs⟩ := List.forall_mem_cons.1 h
    have hlt : hexDigitValue c < Base.hexadecimal.radix :=
      of_decide_eq_true (of_isHexDigit (fun c => hexDigitValue c < 16) (by decide) hc)
    rw [List.mapM_cons, ih hcs, Base.digit?, hc, Bool.true_and, if_pos (decide_eq_true hlt)]
    rfl

theorem hexFloatValue_parts {whole : List Char} {fraction : Option (List Char)}
    {sign : Option Char} {ds : List Char} (hw : ∀ c ∈ whole, isHexDigit c = true)
    (hf : ∀ cs ∈ fraction, ∀ c ∈ cs, isHexDigit c = true)
    (hs : ∀ c ∈ sign, c = '+' ∨ c = '-') (hds : ∀ c ∈ ds, c.isDigit = true) :
    hexFloatValue (whole ++ Numeral.pointed fraction ++ 'p' :: (sign.toList ++ ds)) =
      match digitsValue .decimal (if sign = some '-' then maxInteger + 1 else maxInteger) ds with
      | .error .malformed => .error .malformed
      | .error .overflow => if sign = some '-' then .ok .zero else .error .overflow
      | .ok e =>
        if whole = [] ∧ fraction.getD [] = [] then .error .malformed
        else finite (Mantissa.ofDigits (if sign = some '-' then -(e : Int) else e)
          (whole.map hexDigitValue) ((fraction.getD []).map hexDigitValue)).toDouble := by
  have hrest : ∀ c ∈ fraction.getD [], isHexDigit c = true := by
    cases fraction with
    | none => exact List.forall_mem_nil _
    | some cs => exact hf cs rfl
  have hp : 'p' ∉ whole ++ Numeral.pointed fraction := by
    rw [List.mem_append, not_or]
    exact ⟨not_mem_of_run (p := isHexDigit) rfl hw, not_mem_pointed (by decide) rfl hf⟩
  have hmantissa : (cut '.' (whole ++ Numeral.pointed fraction)).getD
      (whole ++ Numeral.pointed fraction, []) = (whole, fraction.getD []) := by
    cases fraction with
    | none =>
      rw [Numeral.pointed, List.append_nil, cut_none (not_mem_of_run (p := isHexDigit) rfl hw)]
      rfl
    | some cs =>
      rw [Numeral.pointed, cut_append (not_mem_of_run (p := isHexDigit) rfl hw)]
      rfl
  unfold hexFloatValue
  rw [cut_append hp]
  dsimp only
  rw [splitSign_append hs hds, hmantissa, mapM_digit? hw, mapM_digit? hrest]
  cases hd : digitsValue .decimal (if sign = some '-' then maxInteger + 1 else maxInteger) ds with
  | ok e => simp [hd]
  | error e => cases e <;> simp [hd]

/-- A hexadecimal float with digits is malformed only if its exponent is. -/
theorem hexFloatValue_malformed {whole : List Char} {fraction : Option (List Char)}
    {sign : Option Char} {ds : List Char} (hw : ∀ c ∈ whole, isHexDigit c = true)
    (hf : ∀ cs ∈ fraction, ∀ c ∈ cs, isHexDigit c = true)
    (hne : whole ≠ [] ∨ fraction.getD [] ≠ [])
    (hs : ∀ c ∈ sign, c = '+' ∨ c = '-') (hds : ∀ c ∈ ds, c.isDigit = true)
    (hv : hexFloatValue (whole ++ Numeral.pointed fraction ++ 'p' :: (sign.toList ++ ds)) =
      .error .malformed) : ∃ limit, digitsValue .decimal limit ds = .error .malformed := by
  rw [hexFloatValue_parts hw hf hs hds] at hv
  generalize (if sign = some '-' then maxInteger + 1 else maxInteger) = limit at hv
  refine ⟨limit, ?_⟩
  cases hd : digitsValue .decimal limit ds with
  | ok e =>
    rw [hd] at hv
    dsimp only at hv
    rw [if_neg (not_and_or.2 hne)] at hv
    exact absurd hv (finite_ne_malformed _)
  | error e =>
    cases e with
    | malformed => rfl
    | overflow =>
      rw [hd] at hv
      dsimp only at hv
      split at hv <;> cases hv

theorem hexFloatValue_ne_malformed {whole : List Char} {fraction : Option (List Char)}
    {sign : Option Char} {ds : List Char} (hw : ∀ c ∈ whole, isHexDigit c = true)
    (hf : ∀ cs ∈ fraction, ∀ c ∈ cs, isHexDigit c = true)
    (hne : whole ≠ [] ∨ fraction.getD [] ≠ [])
    (hs : ∀ c ∈ sign, c = '+' ∨ c = '-') (hds : ∀ c ∈ ds, c.isDigit = true) (hd : ds ≠ []) :
    hexFloatValue (whole ++ Numeral.pointed fraction ++ 'p' :: (sign.toList ++ ds)) ≠
      .error .malformed := by
  intro hv
  obtain ⟨limit, hv⟩ := hexFloatValue_malformed hw hf hne hs hds hv
  rcases digitsValue_malformed hv with h | ⟨c, hc, hnone⟩
  · exact hd h
  · have hsome := Base.digit?_decimal (hds c hc)
    rw [hnone] at hsome
    cases hsome

/-! ### Decimal floats -/

theorem readExponent_isSome {sign : Option Char} {ds : List Char}
    (hs : ∀ c ∈ sign, c = '+' ∨ c = '-') (hds : ∀ c ∈ ds, c.isDigit = true) (hd : ds ≠ []) :
    (Double.readExponent ('e' :: (sign.toList ++ ds))).isSome = true := by
  have hall : ds.all Char.isDigit = true := List.all_eq_true.2 hds
  simp [Double.readExponent, splitSign_append hs hds, hd, hall]

/-- What begins with a digit has no sign and is no word. -/
theorem isSome_read {c : Char} (hc : c.isDigit = true) {cs : List Char} :
    (Double.read (c :: cs)).isSome = (Double.readDecimal (c :: cs)).isSome := by
  have hsign : Double.splitSign (c :: cs) = (false, c :: cs) := by
    have hne : c ≠ '-' ∧ c ≠ '+' := by constructor <;> (rintro rfl; cases hc)
    simp [Double.splitSign, hne]
  have hword : ∀ d ds, d.isDigit = false → c :: cs ≠ d :: ds := by
    rintro d ds hd ⟨⟩
    rw [hc] at hd
    cases hd
  have hinf : c :: cs ≠ "inf".toList := hword _ _ rfl
  have hinfinity : c :: cs ≠ "infinity".toList := hword _ _ rfl
  have hnan : c :: cs ≠ "nan".toList := hword _ _ rfl
  unfold Double.read
  rw [hsign]
  dsimp only
  unfold Double.readMagnitude
  rw [if_neg (by simp only [decide_eq_true_eq, Bool.or_eq_true, not_or]; exact ⟨hinf, hinfinity⟩),
    if_neg hnan]
  simp

theorem readDecimal_parts {whole : List Char} {fraction : Option (List Char)}
    {exponent : List Char} (hw : ∀ c ∈ whole, c.isDigit = true) (hne : whole ≠ [])
    (hf : ∀ cs ∈ fraction, ∀ c ∈ cs, c.isDigit = true)
    (hhead : ∀ c, exponent.head? = some c → c.isDigit = false ∧ c ≠ '.') :
    Double.readDecimal (whole ++ (Numeral.pointed fraction ++ exponent)) =
      (Double.readExponent exponent).map fun e =>
        (Double.digitsValue (whole ++ fraction.getD []),
          e - ((fraction.getD []).length : Int)) := by
  have hend : ∀ c, exponent.head? = some c → c.isDigit = false := fun c hc => (hhead c hc).1
  have hbehind : ∀ c, (Numeral.pointed fraction ++ exponent).head? = some c →
      c.isDigit = false := by
    cases fraction with
    | none => exact hend
    | some cs =>
      rintro c ⟨⟩
      rfl
  have hsome : whole ++ fraction.getD [] ≠ [] := by simp [hne]
  unfold Double.readDecimal
  rw [takeWhile_append_head hw hbehind, dropWhile_append_head hw hbehind]
  cases fraction with
  | none =>
    cases exponent with
    | nil => simp [Numeral.pointed, hne]
    | cons c cs =>
      have hpoint := (hhead c rfl).2
      simp [Numeral.pointed, hne, hpoint]
  | some cs =>
    have hcs := hf cs rfl
    simp only [Numeral.pointed, List.cons_append, takeWhile_append_head hcs hend,
      dropWhile_append_head hcs hend]
    exact if_neg hsome

/-- A decimal number is accepted exactly if its exponent is, whatever its digits. -/
theorem decimalFloatValue_malformed {whole : List Char} {fraction : Option (List Char)}
    {exponent : List Char} (hw : ∀ c ∈ whole, c.isDigit = true) (hne : whole ≠ [])
    (hf : ∀ cs ∈ fraction, ∀ c ∈ cs, c.isDigit = true)
    (hhead : ∀ c, exponent.head? = some c → c.isDigit = false ∧ c ≠ '.') :
    decimalFloatValue (whole ++ (Numeral.pointed fraction ++ exponent)) = .error .malformed ↔
      Double.readExponent exponent = none := by
  have hread : (Double.read (whole ++ (Numeral.pointed fraction ++ exponent))).isSome =
      (Double.readExponent exponent).isSome := by
    obtain ⟨c, cs, hcs⟩ := List.exists_cons_of_ne_nil hne
    have hc := hw c (hcs ▸ List.mem_cons_self)
    have hparts := congrArg Option.isSome (readDecimal_parts hw hne hf hhead)
    rw [Option.isSome_map, hcs, List.cons_append] at hparts
    rw [hcs, List.cons_append, isSome_read hc, hparts]
  unfold decimalFloatValue
  cases hx : Double.read (whole ++ (Numeral.pointed fraction ++ exponent)) with
  | none =>
    rw [hx] at hread
    exact iff_of_true rfl (Option.isNone_iff_eq_none.1 (Option.isSome_eq_false_iff.1 hread.symm))
  | some x =>
    rw [hx] at hread
    refine iff_of_false (finite_ne_malformed x) fun hnone => ?_
    rw [hnone] at hread
    cases hread

theorem floatValue_ofList (cs : List Char) : floatValue (String.ofList cs) =
    match cleaned cs with
    | '0' :: 'x' :: ds => hexFloatValue ds
    | ds => decimalFloatValue ds := by
  unfold floatValue
  rw [String.toList_ofList]
  rfl

theorem floatValue_prefixed {w : String} {cs : List Char}
    (h : cleaned w.toList = '0' :: 'x' :: cs) :
    floatValue w = hexFloatValue cs := by
  rw [← String.ofList_toList (s := w), floatValue_ofList, h]
  rfl

theorem floatValue_decimal {cs : List Char} (h : 'x' ∉ cleaned cs) :
    floatValue (String.ofList cs) = decimalFloatValue (cleaned cs) := by
  rw [floatValue_ofList]
  split
  · next heq => exact absurd (by simp [heq]) h
  · rfl

theorem cleaned_text {n : Numeral} (hi : n.imaginary = false) :
    cleaned n.text = cleaned (n.lead.text ++ n.whole) ++
      (Numeral.pointed (n.fraction.map cleaned) ++ cleaned (n.exponent.elim [] Exponent.text)) := by
  rw [Numeral.text, Numeral.magnitude, Numeral.mantissa, hi, Numeral.imaginaryMark,
    List.append_nil, cleaned_append, cleaned_append, cleaned_pointed, List.append_assoc]

theorem toLower_marker {c : Char} (h : Exponent.isMarker c = true) :
    c.toLower = 'e' ∨ c.toLower = 'p' := by
  simp only [Exponent.isMarker, Bool.or_eq_true, decide_eq_true_eq] at h
  rcases h with ((rfl | rfl) | rfl) | rfl
  · exact Or.inl rfl
  · exact Or.inl rfl
  · exact Or.inr rfl
  · exact Or.inr rfl

theorem exponent_of_faultless {n : Numeral} {e : Exponent} (he : n.exponent = some e)
    (hn : n.exponentFault = none) (hf : e.Formed) :
    Numeral.hasDigit e.digits = true ∧ (e.marker.toLower = 'e' ∧ n.lead.isMarked = false ∨
      e.marker.toLower = 'p' ∧ n.base = .hexadecimal) := by
  unfold Numeral.exponentFault at hn
  rw [he] at hn
  dsimp only at hn
  split at hn
  · cases hn
  next hdecimal =>
  split at hn
  · cases hn
  next hhex =>
  split at hn
  next hdigits =>
    refine ⟨hdigits, (toLower_marker hf.marker).imp (fun hm => ⟨hm, ?_⟩) fun hm => ⟨hm, ?_⟩⟩
    · simpa [hm] using hdecimal
    · simpa [hm] using hhex
  · cases hn

/-- A mark of a base that is not sixteen does not go with a float. -/
theorem base_of_faultless {n : Numeral} (h : n.Formed) (hi : n.imaginary = false)
    (hn : n.isInteger = false) (hm : n.misshape? = none) (hl : n.lead.isMarked = true) :
    n.base = .hexadecimal ∧ ∃ e, n.exponent = some e := by
  obtain ⟨hpoint, -, hexponent, -⟩ := Numeral.misshape?_eq_none.1 hm
  cases he : n.exponent with
  | some e =>
    obtain ⟨-, ⟨-, hmark⟩ | ⟨-, hb⟩⟩ := exponent_of_faultless he hexponent (h.exponent e he)
    · rw [hl] at hmark
      cases hmark
    · exact ⟨hb, e, rfl⟩
  | none =>
    have hf : n.fraction.isSome = true := by
      simpa [Numeral.isInteger, he, hi] using hn
    have hb : n.base = .hexadecimal := by
      simpa [Numeral.pointFault, hf, hl] using hpoint
    simp [Numeral.exponentFault, he, hf, hb] at hexponent

theorem toLower_of_ofLetter? {l : Char} (h : Base.ofLetter? l = some .hexadecimal) :
    l.toLower = 'x' := by
  unfold Base.ofLetter? at h
  split at h
  · assumption
  all_goals cases h

theorem cleaned_marked {n : Numeral} {l : Char} (hi : n.imaginary = false)
    (hlead : n.lead = .marked l) (hl : (Base.ofLetter? l).isSome = true) :
    cleaned n.text = '0' :: l.toLower :: (cleaned n.whole ++
      Numeral.pointed (n.fraction.map cleaned) ++ cleaned (n.exponent.elim [] Exponent.text)) := by
  have hne : l ≠ '_' := by
    rintro rfl
    cases hl
  rw [cleaned_text hi, cleaned_append, hlead, Lead.text, cleaned_cons (by decide),
    cleaned_cons hne]
  simp [cleaned, withoutSeparators]

/-- A float with the mark of base sixteen, and an exponent to the base two. -/
theorem floatValue_marked {n : Numeral} {e : Exponent} (h : n.Formed) (hi : n.imaginary = false)
    (hl : n.lead.isMarked = true) (hb : n.base = .hexadecimal) (he : n.exponent = some e)
    (hp : e.marker.toLower = 'p') :
    floatValue (String.ofList n.text) = hexFloatValue (cleaned n.whole ++
      Numeral.pointed (n.fraction.map cleaned) ++ 'p' :: (e.sign.toList ++ cleaned e.digits)) := by
  obtain ⟨l, hlead⟩ : ∃ l, n.lead = .marked l := by
    cases hlead : n.lead with
    | marked l => exact ⟨l, rfl⟩
    | _ => rw [hlead] at hl; cases hl
  have hletter : Base.ofLetter? l = some .hexadecimal := by
    obtain ⟨b, hlb⟩ := Option.isSome_iff_exists.1 (h.lead l hlead)
    have hbase : n.base = (Base.ofLetter? l).getD .decimal := by
      rw [Numeral.base, hlead]
      rfl
    rw [hbase, hlb] at hb
    rw [hlb]
    exact congrArg some hb
  rw [floatValue_ofList, cleaned_marked hi hlead (h.lead l hlead), toLower_of_ofLetter? hletter, he,
    Option.elim_some, cleaned_exponent (h.exponent e he), hp]
  rfl

/-- A float without a mark begins with a decimal digit, and goes on with decimal digits. -/
theorem cleaned_unmarked {n : Numeral} (h : n.Formed) (hl : n.lead.isMarked = false) :
    n.base ≠ .hexadecimal ∧ cleaned (n.lead.text ++ n.whole) ≠ [] ∧
      ∀ c ∈ cleaned (n.lead.text ++ n.whole), c.isDigit = true := by
  have hb : n.base ≠ .hexadecimal := by
    unfold Numeral.base
    cases hlead : n.lead with
    | marked l =>
      rw [hlead] at hl
      cases hl
    | _ =>
      intro h
      cases h
  refine ⟨hb, ?_⟩
  cases hlead : n.lead with
  | marked l =>
    rw [hlead] at hl
    cases hl
  | zero =>
    rw [Lead.text, List.singleton_append, cleaned_cons (by decide)]
    exact ⟨List.cons_ne_nil _ _,
      List.forall_mem_cons.2 ⟨rfl, fun c => isDigit_of_mem_cleaned hb h.whole⟩⟩
  | plain =>
    obtain ⟨c, cs, hw, hc, -⟩ := h.plain hlead
    rw [Lead.text, List.nil_append]
    refine ⟨?_, fun c => isDigit_of_mem_cleaned hb h.whole⟩
    rw [hw, cleaned_cons (ne_separator_of_isDigit hc)]
    exact List.cons_ne_nil _ _

theorem isHexDigit_of_mem_parts {n : Numeral} (h : n.Formed) (hb : n.base = .hexadecimal) :
    (∀ c ∈ cleaned n.whole, isHexDigit c = true) ∧
      ∀ cs ∈ n.fraction.map cleaned, ∀ c ∈ cs, isHexDigit c = true := by
  have hrun : ∀ run : List Char, (∀ c ∈ run, inRun n.base c = true) →
      ∀ c ∈ cleaned run, isHexDigit c = true := by
    rw [hb]
    exact fun run hrun c => isHexDigit_of_mem_cleaned hrun
  refine ⟨hrun _ h.whole, fun cs hcs => ?_⟩
  obtain ⟨ds, hds, rfl⟩ := Option.map_eq_some_iff.1 hcs
  exact hrun ds (h.fraction ds hds)

theorem floatValue_ne_malformed_marked {n : Numeral} (h : n.Formed) (hi : n.imaginary = false)
    (hn : n.isInteger = false) (hm : n.misshape? = none) (hl : n.lead.isMarked = true) :
    floatValue (String.ofList n.text) ≠ .error .malformed := by
  obtain ⟨-, hdigits, hexponent, -⟩ := Numeral.misshape?_eq_none.1 hm
  obtain ⟨hb, e, he⟩ := base_of_faultless h hi hn hm hl
  have hform := h.exponent e he
  obtain ⟨hdigit, ⟨-, hmark⟩ | ⟨hp, -⟩⟩ := exponent_of_faultless he hexponent hform
  · rw [hl] at hmark
    cases hmark
  obtain ⟨hw, hf⟩ := isHexDigit_of_mem_parts h hb
  have hne : cleaned n.whole ≠ [] ∨ (n.fraction.map cleaned).getD [] ≠ [] := by
    have hzero : n.lead ≠ .zero := by
      intro hlead
      rw [hlead] at hl
      cases hl
    by_cases hwhole : Numeral.hasDigit n.whole = true
    · exact Or.inl (cleaned_ne_nil hwhole)
    · cases hfraction : n.fraction with
      | none => simp [Numeral.digitsFault, hzero, hwhole, hfraction] at hdigits
      | some ds =>
        have hds : Numeral.hasDigit ds = true := by
          simpa [Numeral.digitsFault, hzero, hwhole, hfraction] using hdigits
        exact Or.inr (cleaned_ne_nil hds)
  rw [floatValue_marked h hi hl hb he hp]
  exact hexFloatValue_ne_malformed hw hf hne hform.sign (isDigit_of_mem_exponent hform)
    (cleaned_ne_nil hdigit)

theorem cleaned_exponent_apart {n : Numeral} (h : n.Formed) :
    (∀ c, (cleaned (n.exponent.elim [] Exponent.text)).head? = some c →
      c.isDigit = false ∧ c ≠ '.') ∧
    'x' ∉ cleaned (n.exponent.elim [] Exponent.text) := by
  cases he : n.exponent with
  | none => exact ⟨nofun, List.not_mem_nil⟩
  | some e =>
    have hform := h.exponent e he
    have hmarker := toLower_marker hform.marker
    rw [Option.elim_some]
    constructor
    · rw [cleaned_exponent hform]
      rintro c ⟨⟩
      rcases hmarker with hm | hm <;> rw [hm] <;> decide
    · refine not_mem_exponent hform ?_ (by decide) rfl
      rcases hmarker with hm | hm <;> rw [hm] <;> decide

/-- An exponent that goes with a decimal number is accepted where it is looked for. -/
theorem exponent_accepted {n : Numeral} (h : n.Formed) (hb : n.base ≠ .hexadecimal)
    (hexponent : n.exponentFault = none) :
    (Double.readExponent (cleaned (n.exponent.elim [] Exponent.text))).isSome = true := by
  cases he : n.exponent with
  | none => rfl
  | some e =>
    have hform := h.exponent e he
    obtain ⟨hdigit, ⟨hmark, -⟩ | ⟨-, hbase⟩⟩ := exponent_of_faultless he hexponent hform
    · rw [Option.elim_some, cleaned_exponent hform, hmark]
      exact readExponent_isSome hform.sign (isDigit_of_mem_exponent hform) (cleaned_ne_nil hdigit)
    · exact absurd hbase hb

/-- A float without a mark is malformed exactly if its exponent is. -/
theorem floatValue_unmarked {n : Numeral} (h : n.Formed) (hi : n.imaginary = false)
    (hl : n.lead.isMarked = false) : floatValue (String.ofList n.text) = .error .malformed ↔
      Double.readExponent (cleaned (n.exponent.elim [] Exponent.text)) = none := by
  obtain ⟨hb, hne, hwhole⟩ := cleaned_unmarked h hl
  obtain ⟨hhead, htail⟩ := cleaned_exponent_apart h
  have hf : ∀ cs ∈ n.fraction.map cleaned, ∀ c ∈ cs, c.isDigit = true := by
    intro cs hcs
    obtain ⟨ds, hds, rfl⟩ := Option.map_eq_some_iff.1 hcs
    exact fun c => isDigit_of_mem_cleaned hb (h.fraction ds hds)
  have hx : 'x' ∉ cleaned n.text := by
    rw [cleaned_text hi, List.mem_append, List.mem_append, not_or, not_or]
    exact ⟨not_mem_of_run (p := Char.isDigit) rfl hwhole, not_mem_pointed (by decide) rfl hf, htail⟩
  rw [floatValue_decimal hx, cleaned_text hi]
  exact decimalFloatValue_malformed hwhole hne hf hhead

theorem floatValue_ne_malformed_unmarked {n : Numeral} (h : n.Formed) (hi : n.imaginary = false)
    (hm : n.misshape? = none) (hl : n.lead.isMarked = false) :
    floatValue (String.ofList n.text) ≠ .error .malformed := by
  obtain ⟨-, -, hexponent, -⟩ := Numeral.misshape?_eq_none.1 hm
  have he := exponent_accepted h (cleaned_unmarked h hl).1 hexponent
  intro hv
  rw [(floatValue_unmarked h hi hl).1 hv] at he
  cases he

/-- A float without a fault in its parts has a value, or too large a one. -/
theorem floatValue_ne_malformed {n : Numeral} (h : n.Formed) (hi : n.imaginary = false)
    (hn : n.isInteger = false) (hm : n.misshape? = none) :
    floatValue (String.ofList n.text) ≠ .error .malformed := by
  by_cases hl : n.lead.isMarked = true
  · exact floatValue_ne_malformed_marked h hi hn hm hl
  · exact floatValue_ne_malformed_unmarked h hi hm (Bool.not_eq_true _ ▸ hl)

end Literal
end FrontEnd
