import FrontEnd.Proofs.Literal.Digits

/-!
# Literals without a value

What is wrong with the parts of a numeral, apart from its separators, is found by the
converters again, and they give it no value.  One text is let through: the converter of floats
reads the exponent first, and looks at no digit when that is below every integer.
-/

namespace FrontEnd
namespace Literal

variable {n : Numeral}

/-- Only an integer without a fault in its digits has a value. -/
theorem integerValue_error (h : n.Formed) (hi : n.isInteger = true) (hm : n.misshape? ≠ none) :
    ∃ err, integerValue (String.ofList n.text) = .error err := by
  cases hv : integerValue (String.ofList n.text) with
  | error err => exact ⟨err, rfl⟩
  | ok v =>
    obtain ⟨hfraction, hexponent, -⟩ := Numeral.isInteger_iff.1 hi
    -- A zero alone is a digit of its own, and has no others behind it.
    have hdigits : (n.lead = .zero ∨ Numeral.hasDigit n.whole = true) ∧
        ∀ c ∈ withoutSeparators n.whole, c ∈ n.base.digits.toList := by
      unfold integerValue at hv
      dsimp only at hv
      rw [String.toList_ofList, integerDigits_text h hi] at hv
      by_cases hzero : n.lead = .zero ∧ withoutSeparators n.whole = []
      · rw [hzero.2]
        exact ⟨Or.inl hzero.1, List.forall_mem_nil _⟩
      · rw [if_neg hzero] at hv
        obtain ⟨hne, hnumber, -⟩ := digitsValue_ok hv
        exact ⟨Or.inr (withoutSeparators_ne_nil.1 hne), mem_digits_of_number? hnumber⟩
    refine absurd (Numeral.misshape?_eq_none.2 ⟨?_, ?_, ?_, ?_⟩) hm
    · rw [Numeral.pointFault_eq_none, hfraction]
      nofun
    · exact Numeral.digitsFault_eq_none.2 (hdigits.1.imp_right Or.inl)
    · simp [Numeral.exponentFault, hexponent, hfraction]
    · refine Numeral.digitFault_eq_none.2 fun _ c hc => Numeral.isStray_eq_false.2 ?_
      by_cases hsep : c = '_'
      · exact Or.inl hsep
      · exact Or.inr (hdigits.2 c (mem_withoutSeparators.2 ⟨hc, hsep⟩))

/-- The literal is in base sixteen, has no digit in front of its exponent, and the exponent is
below every integer. -/
def IsVanishing (w : String) : Prop :=
  ∃ point ds v, (point = [] ∨ point = ['.']) ∧
    cleaned w.toList = '0' :: 'x' :: (point ++ 'p' :: '-' :: ds) ∧
    Base.decimal.number? ds = some v ∧ maxInteger + 1 < v

theorem digits_of_isDigit {c : Char} (h : c.isDigit = true) : c ∈ Base.decimal.digits.toList :=
  Base.isSome_digit?_iff.1 (Base.digit?_decimal h)

theorem IsVanishing.floatValue {w : String} (h : IsVanishing w) : floatValue w = .ok .zero := by
  obtain ⟨point, ds, v, hpoint, hw, hv, hlt⟩ := h
  obtain ⟨fraction, hfraction, hempty⟩ : ∃ fraction : Option (List Char),
      Numeral.pointed fraction = point ∧ ∀ cs ∈ fraction, cs = [] := by
    rcases hpoint with rfl | rfl
    · exact ⟨none, rfl, nofun⟩
    · exact ⟨some [], rfl, by rintro _ ⟨⟩; rfl⟩
  have hf : ∀ cs ∈ fraction, ∀ c ∈ cs, isHexDigit c = true := by
    intro cs hcs
    rw [hempty cs hcs]
    exact List.forall_mem_nil _
  have hs : ∀ c ∈ some '-', c = '+' ∨ c = '-' := by
    rintro _ ⟨⟩
    exact Or.inr rfl
  have hds := isDigit_of_number? hv
  have hne : ds ≠ [] := by
    rintro rfl
    cases hv
    cases hlt
  have hvalue : Literal.floatValue w =
      hexFloatValue ([] ++ Numeral.pointed fraction ++ 'p' :: ((some '-').toList ++ ds)) := by
    rw [floatValue_prefixed hw, hfraction]
    rfl
  rw [hvalue, hexFloatValue_parts (List.forall_mem_nil _) hf hs hds, if_pos rfl,
    digitsValue_of_number? hne hv, if_neg (Nat.not_le_of_lt hlt)]
  exact if_pos rfl

theorem cleaned_eq_nil {run : List Char} : cleaned run = [] ↔ ¬ Numeral.hasDigit run = true := by
  rw [cleaned, List.map_eq_nil_iff, ← withoutSeparators_ne_nil, not_not]

/-- Without its exponent a float in base sixteen is malformed. -/
theorem hexFloatValue_bare {n : Numeral} (h : n.Formed) (hb : n.base = .hexadecimal)
    (hp : ∀ e ∈ n.exponent, e.marker.toLower ≠ 'p') :
    hexFloatValue (cleaned n.whole ++ Numeral.pointed (n.fraction.map cleaned) ++
      cleaned (n.exponent.elim [] Exponent.text)) = .error .malformed := by
  obtain ⟨hw, hf⟩ := isHexDigit_of_mem_parts h hb
  have hexponent : 'p' ∉ cleaned (n.exponent.elim [] Exponent.text) := by
    cases he : n.exponent with
    | none => exact List.not_mem_nil
    | some e => exact not_mem_exponent (h.exponent e he) (hp e he).symm (by decide) rfl
  have hnone : 'p' ∉ cleaned n.whole ++ Numeral.pointed (n.fraction.map cleaned) ++
      cleaned (n.exponent.elim [] Exponent.text) := by
    rw [List.mem_append, List.mem_append, not_or, not_or]
    exact ⟨⟨not_mem_of_run (p := isHexDigit) rfl hw, not_mem_pointed (by decide) rfl hf⟩, hexponent⟩
  rw [hexFloatValue, cut_none hnone]

/-- What can be wrong with its parts, if its exponent is right, is that there are no digits in front
of that. -/
theorem cleaned_eq_nil_of_misshape {e : Exponent} (hm : n.misshape? ≠ none)
    (hb : n.base = .hexadecimal) (he : n.exponent = some e) (hp : e.marker.toLower = 'p')
    (hdigit : Numeral.hasDigit e.digits = true) :
    cleaned n.whole = [] ∧ (n.fraction.map cleaned).getD [] = [] := by
  have hdigits : n.digitsFault ≠ none := by
    intro hdigits
    refine hm (Numeral.misshape?_eq_none.2 ⟨?_, hdigits, ?_, ?_⟩)
    · exact Numeral.pointFault_eq_none.2 fun _ _ => hb
    · rw [Numeral.exponentFault_eq_none, he]
      refine ⟨?_, nofun⟩
      rintro _ ⟨⟩
      refine ⟨⟨fun hten => ?_, fun _ => hb⟩, hdigit⟩
      rw [hp] at hten
      cases hten
    · exact Numeral.digitFault_eq_none.2 fun hinteger => by simp [Numeral.isInteger, he] at hinteger
  rw [Ne, Numeral.digitsFault_eq_none, not_or, not_or] at hdigits
  obtain ⟨-, hwhole, hfraction⟩ := hdigits
  refine ⟨cleaned_eq_nil.2 hwhole, ?_⟩
  cases hn : n.fraction with
  | none => rfl
  | some ds =>
    rw [hn] at hfraction
    exact cleaned_eq_nil.2 hfraction

/-- With an exponent it has no value if a digit is missing, but for one that vanishes. -/
theorem floatValue_hexadecimal {e : Exponent} {x : Double} (h : n.Formed)
    (hi : n.imaginary = false) (hm : n.misshape? ≠ none) (hl : n.lead.isMarked = true)
    (hb : n.base = .hexadecimal) (he : n.exponent = some e) (hp : e.marker.toLower = 'p')
    (hv : floatValue (String.ofList n.text) = .ok x) : IsVanishing (String.ofList n.text) := by
  obtain ⟨hw, hf⟩ := isHexDigit_of_mem_parts h hb
  have hform := h.exponent e he
  have hds := isDigit_of_mem_exponent hform
  rw [floatValue_marked h hi hl hb he hp, hexFloatValue_parts hw hf hform.sign hds] at hv
  by_cases hnone : cleaned e.digits = []
  · rw [hnone] at hv
    cases hv
  have hempty := cleaned_eq_nil_of_misshape hm hb he hp (not_not.1 (cleaned_eq_nil.not.1 hnone))
  obtain ⟨v, hnumber⟩ := exists_number_of_digits fun c hc => digits_of_isDigit (hds c hc)
  rw [digitsValue_of_number? hnone hnumber] at hv
  generalize hlimit : (if e.sign = some '-' then maxInteger + 1 else maxInteger) = limit at hv
  by_cases hle : v ≤ limit
  · rw [if_pos hle] at hv
    dsimp only at hv
    rw [if_pos hempty] at hv
    cases hv
  · rw [if_neg hle] at hv
    dsimp only at hv
    by_cases hsign : e.sign = some '-'
    · rw [if_pos hsign] at hlimit
      obtain ⟨l, hlead, hletter⟩ | ⟨hunmarked, -⟩ := h.lead_cases
      · rw [hb] at hletter
        refine ⟨Numeral.pointed (n.fraction.map cleaned), cleaned e.digits, v, ?_, ?_, hnumber,
          hlimit ▸ Nat.lt_of_not_le hle⟩
        · cases hn : n.fraction with
          | none => exact Or.inl rfl
          | some ds =>
            rw [hn] at hempty
            exact Or.inr (congrArg ('.' :: ·) hempty.2)
        · rw [String.toList_ofList, cleaned_marked hi hlead (by rw [hletter]; rfl),
            toLower_of_ofLetter? hletter, he, Option.elim_some, cleaned_exponent hform, hp,
            hempty.1, hsign]
          rfl
      · rw [hl] at hunmarked
        cases hunmarked
    · rw [if_neg hsign] at hv
      cases hv

/-- A letter of another base than sixteen is read as an exponent of base ten, and is none. -/
theorem floatValue_other {b : Base} {l : Char} (hi : n.imaginary = false)
    (hlead : n.lead = .marked l) (hl : Base.ofLetter? l = some b) (hb : b ≠ .hexadecimal) :
    floatValue (String.ofList n.text) = .error .malformed := by
  have hletter : l.toLower ≠ 'x' ∧ l.toLower ≠ 'e' ∧ l.toLower.isDigit = false ∧
      l.toLower ≠ '.' := by
    unfold Base.ofLetter? at hl
    split at hl
    · exact absurd (Option.some.inj hl).symm hb
    · next ho => rw [ho]; decide
    · next hb => rw [hb]; decide
    · cases hl
  obtain ⟨hx, he, hdigit, hpoint⟩ := hletter
  have hzero : ∀ c ∈ ['0'], c.isDigit = true := forall_mem_of_all (by decide)
  have hread : ∀ cs, Double.readExponent (l.toLower :: cs) = none := by
    intro cs
    unfold Double.readExponent
    split
    · next heq => cases heq
    · next heq => exact absurd (List.cons.inj heq).1 he
    · rfl
  rw [floatValue_ofList, cleaned_marked hi hlead (by rw [hl]; rfl)]
  split
  · next heq => exact absurd (List.cons.inj (List.cons.inj heq).2).1 hx
  · have hf : ∀ cs ∈ (none : Option (List Char)), ∀ c ∈ cs, c.isDigit = true := nofun
    refine (decimalFloatValue_malformed hzero (List.cons_ne_nil _ _) hf ?_).2 (hread _)
    rintro c ⟨⟩
    exact ⟨hdigit, hpoint⟩

theorem floatValue_faulty (h : n.Formed) (hi : n.imaginary = false) (hn : n.isInteger = false)
    (hm : n.misshape? ≠ none) (hl : n.lead.isMarked = false) :
    floatValue (String.ofList n.text) = .error .malformed := by
  have hb := (cleaned_unmarked h hl).1
  have hexponent : n.exponentFault ≠ none := by
    intro hexponent
    refine hm (Numeral.misshape?_eq_none.2 ⟨?_, ?_, hexponent, ?_⟩)
    · refine Numeral.pointFault_eq_none.2 fun _ hmarked => ?_
      rw [hl] at hmarked
      cases hmarked
    · refine Numeral.digitsFault_eq_none.2 ?_
      cases hlead : n.lead with
      | zero => exact Or.inl rfl
      | plain =>
        obtain ⟨c, cs, hw, hc, -⟩ := h.plain hlead
        have hne := ne_separator_of_isDigit hc
        exact Or.inr (Or.inl (by simp [hw, Numeral.hasDigit, hne]))
      | marked l =>
        rw [hlead] at hl
        cases hl
    · exact Numeral.digitFault_eq_none.2 fun hinteger => by simp [hn] at hinteger
  rw [floatValue_unmarked h hi hl]
  cases he : n.exponent with
  | none =>
    refine absurd (Numeral.exponentFault_eq_none.2 ⟨?_, fun _ _ => hb⟩) hexponent
    rw [he]
    rintro _ ⟨⟩
  | some e =>
    have hform := h.exponent e he
    rw [Option.elim_some, cleaned_exponent hform]
    rcases toLower_marker hform.marker with hten | htwo
    · have hnone : cleaned e.digits = [] := by
        refine cleaned_eq_nil.2 fun hany => hexponent (Numeral.exponentFault_eq_none.2 ⟨?_, ?_⟩)
        · rw [he]
          rintro _ ⟨⟩
          refine ⟨⟨fun _ => hl, fun htwo => ?_⟩, hany⟩
          rw [hten] at htwo
          cases htwo
        · rw [he]
          rintro ⟨⟩
      rw [hten, Double.readExponent, splitSign_append hform.sign (isDigit_of_mem_exponent hform),
        hnone]
      rfl
    · rw [htwo]
      rfl

/-- What is found fault with has no value, but for the texts that vanish. -/
theorem floatValue_ok_iff (h : n.Formed) (hi : n.imaginary = false) (hn : n.isInteger = false)
    (hm : n.misshape? ≠ none) {x : Double} :
    floatValue (String.ofList n.text) = .ok x ↔ IsVanishing (String.ofList n.text) ∧ x = .zero := by
  have hvanishing : floatValue (String.ofList n.text) = .ok x →
      IsVanishing (String.ofList n.text) := by
    intro hv
    rcases h.lead_cases with ⟨l, hlead, hletter⟩ | ⟨hl, -⟩
    · have hl : n.lead.isMarked = true := by
        rw [hlead]
        rfl
      by_cases hb : n.base = .hexadecimal
      · by_cases hp : ∃ e, n.exponent = some e ∧ e.marker.toLower = 'p'
        · obtain ⟨e, he, hp⟩ := hp
          exact floatValue_hexadecimal h hi hm hl hb he hp hv
        · rw [hb] at hletter
          rw [floatValue_ofList, cleaned_marked hi hlead (by rw [hletter]; rfl),
            toLower_of_ofLetter? hletter] at hv
          have hbare := hexFloatValue_bare h hb fun e he hmark => hp ⟨e, he, hmark⟩
          exact absurd (hbare.symm.trans hv) nofun
      · exact absurd ((floatValue_other hi hlead hletter hb).symm.trans hv) nofun
    · exact absurd ((floatValue_faulty h hi hn hm hl).symm.trans hv) nofun
  constructor
  · intro hv
    have hw := hvanishing hv
    exact ⟨hw, Except.ok.inj (hv.symm.trans hw.floatValue)⟩
  · rintro ⟨hw, rfl⟩
    exact hw.floatValue

end Literal
end FrontEnd
