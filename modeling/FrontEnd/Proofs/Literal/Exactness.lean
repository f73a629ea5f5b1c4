import FrontEnd.Proofs.Literal.HexFloat

/-!
# The ways of writing a double

A double has many hexadecimal literals: zeros may stand in front of the digits and behind them,
the point may stand anywhere, and what the mantissa has more the exponent has less.  They all
write one number, and each of them is read as the double that is this number, whatever digits the
converter drops on the way.
-/

namespace FrontEnd
namespace Literal

variable {w : String} {ws fs : List Nat} {e : Int} {x : Double}
  {r : Except LiteralError Double}

/-- No other double is beside a number that is a double. -/
theorem Faithful.exists_ok (h : Faithful x.value r) (hx : x.isFinite = true) :
    ∃ y, r = .ok y ∧ y.isNegative = false ∧ y.value = x.value := by
  cases h with
  | @beside y hpositive _ _ hbelow habove =>
    exact ⟨y, rfl, hpositive, le_antisymm (habove x hx le_rfl) (hbelow x hx le_rfl)⟩
  | excess hall => exact absurd (hall x hx) (lt_irrefl _)

theorem IsHexFloat.faithful_floatValue (h : IsHexFloat w ws fs e)
    (hlow : -(maxInteger + 1 : Int) ≤ e) (hhigh : e ≤ maxInteger) :
    Faithful (hexNumber ws fs e) (Literal.floatValue w) := by
  obtain ⟨hws, hfs⟩ := h.digits_lt
  rw [h.floatValue, if_neg (by omega), if_neg (by omega)]
  exact (Mantissa.isFront_ofDigits hws hfs e).finite_toDouble.1

/-- Every literal of a double with an exponent in range is read as that double, bit for bit.  A
literal has no sign, so what it writes is never the zero with one. -/
theorem IsHexFloat.exact (h : IsHexFloat w ws fs e) (hlow : -(maxInteger + 1 : Int) ≤ e)
    (hhigh : e ≤ maxInteger) (hx : x.isFinite = true) (hvalue : hexNumber ws fs e = x.value) :
    (x.isNegative = false → Literal.floatValue w = .ok x) ∧
      (x.isNegative = true → Literal.floatValue w = .ok .zero) := by
  have hfaithful := h.faithful_floatValue hlow hhigh
  rw [hvalue] at hfaithful
  obtain ⟨y, hread, hpositive, hy⟩ := hfaithful.exists_ok hx
  rw [hread]
  constructor
  · intro hsign
    rw [Double.eq_of_value_eq (hpositive.trans hsign.symm) hy]
  · intro hsign
    have hnonneg := hexNumber_nonneg ws fs e
    rw [hvalue] at hnonneg
    have hzero : x.value = 0 := le_antisymm (Double.value_nonpos hsign) hnonneg
    have hsame : y.value = Double.zero.value := by
      rw [hy, hzero, Double.value_zero]
    rw [Double.eq_of_value_eq hpositive hsame]

/-- Twenty zeros in front of the point, of which some are dropped, and the smallest double. -/
theorem IsHexFloat.exact_smallest :
    (∃ ws fs, IsHexFloat "0X1_00000_00000_00000_00000.0P-1154" ws fs (-1154) ∧
      hexNumber ws fs (-1154) = (Double.mk 1).value) ∧
    Literal.floatValue "0X1_00000_00000_00000_00000.0P-1154" = .ok ⟨1⟩ := by
  have h : IsHexFloat "0X1_00000_00000_00000_00000.0P-1154" (1 :: .replicate 20 0) [0] (-1154) :=
    @IsHexFloat.intro _ "100000000000000000000".toList (some ['0']) (some '-') "1154".toList _ _
      1154 (by decide) (by decide) (by decide) (by decide) (by rintro _ ⟨⟩; decide) (by decide)
      (by decide)
  have hsmallest : (Double.mk 1).value = 2 ^ (-1074 : Int) := by
    rw [Double.value, show (Double.mk 1).isNegative = false by decide,
      show (Double.mk 1).significand = 1 by decide, show (Double.mk 1).scale = -1074 by decide]
    norm_num
  have hdigits : Nat.ofDigits 16 (1 :: List.replicate 20 0 ++ [0]).reverse = 2 ^ 84 := by decide
  have hnumber : hexNumber (1 :: .replicate 20 0) [0] (-1154) = (Double.mk 1).value := by
    rw [hexNumber, hdigits, hsmallest, Nat.cast_pow, Nat.cast_ofNat, ← zpow_natCast,
      ← zpow_add₀ two_ne_zero]
    rfl
  exact ⟨⟨_, _, h, hnumber⟩,
    (h.exact (by decide) (by decide) (by decide) hnumber).1 (by decide)⟩

end Literal
end FrontEnd
