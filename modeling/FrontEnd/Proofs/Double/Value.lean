import FrontEnd.Double.Rounding
import Mathlib.Algebra.Order.Field.Power
import Mathlib.Data.Rat.Cast.Order
import Mathlib.Tactic.FieldSimp
import Mathlib.Tactic.Linarith
import Mathlib.Tactic.Positivity
import Mathlib.Tactic.Ring

/-!
# The numbers that doubles are

The bits of a double below its sign count the doubles from zero on, so the numbers that they are
grow with the count: each is the one before and the weight of its last bit.
-/

namespace FrontEnd
namespace Double

/-- How many binades the count `m` is above the lowest.  The numbers without a leading bit have
the last bit of the lowest binade. -/
def binade (m : Nat) : Nat :=
  m / 2 ^ 52 - 1

def lastPlace (m : Nat) : ℚ :=
  2 ^ ((binade m : Int) - 1074)

def valueAt (m : Nat) : ℚ :=
  ((m - binade m * 2 ^ 52 : Nat) : ℚ) * lastPlace m

def midpoint (m : Nat) : ℚ :=
  (valueAt m + valueAt (m + 1)) / 2

def value (x : Double) : ℚ :=
  (if x.isNegative then -1 else 1) * ((x.significand : ℚ) * 2 ^ x.scale)

variable {a m n : Nat} {x : Double}

theorem significand_eq (x : Double) :
    x.significand = x.magnitude - binade x.magnitude * 2 ^ 52 := by
  unfold significand field fraction binade
  rw [Nat.shiftRight_eq_div_pow, show 1 <<< 52 = 2 ^ 52 from rfl]
  split <;> omega

theorem scale_eq (x : Double) : x.scale = (binade x.magnitude : Int) - 1074 := by
  unfold scale field binade
  rw [Nat.shiftRight_eq_div_pow]
  omega

theorem abs_value (x : Double) : |x.value| = valueAt x.magnitude := by
  have hnonneg : (0 : ℚ) ≤ (x.significand : ℚ) * 2 ^ x.scale := by positivity
  have habs : |x.value| = (x.significand : ℚ) * 2 ^ x.scale := by
    rw [value, abs_mul, abs_of_nonneg hnonneg]
    cases x.isNegative <;> simp
  rw [habs, significand_eq, scale_eq]
  rfl

theorem value_of_positive (h : x.isNegative = false) : x.value = valueAt x.magnitude := by
  rw [← abs_value, value, h, if_neg Bool.false_ne_true, one_mul]
  exact (abs_of_nonneg (by positivity)).symm

theorem value_nonpos (h : x.isNegative = true) : x.value ≤ 0 := by
  rw [value, if_pos h, neg_one_mul, neg_nonpos]
  positivity

theorem value_of_nonneg (h : 0 ≤ x.value) : x.value = valueAt x.magnitude := by
  rw [← abs_value, abs_of_nonneg h]

theorem ofParts_magnitude (x : Double) : ofParts x.isNegative x.magnitude = x := by
  have hbits := x.bits.toNat_lt
  have hsum : x.magnitude + (if x.isNegative then 1 <<< 63 else 0) = x.bits.toNat := by
    unfold magnitude isNegative
    simp only [decide_eq_true_eq, Nat.one_shiftLeft]
    split <;> omega
  rw [ofParts, hsum, UInt64.ofNat_toNat]

theorem lastPlace_pos (m : Nat) : 0 < lastPlace m := by
  unfold lastPlace
  positivity

theorem binade_pack (hn : n < 2 ^ 53) (hlead : 2 ^ 52 ≤ n ∨ a = 0) :
    binade (a * 2 ^ 52 + n) = a := by
  unfold binade
  omega

/-- A significand counts on from its binade, also into the next. -/
theorem valueAt_pack (hn : n ≤ 2 ^ 53) (hlead : 2 ^ 52 ≤ n ∨ a = 0) :
    valueAt (a * 2 ^ 52 + n) = (n : ℚ) * 2 ^ ((a : Int) - 1074) := by
  rcases Nat.lt_or_eq_of_le hn with hlt | rfl
  · rw [valueAt, lastPlace, binade_pack hlt hlead, Nat.add_sub_cancel_left]
  · have hcarry : a * 2 ^ 52 + 2 ^ 53 = (a + 1) * 2 ^ 52 + 2 ^ 52 := by omega
    rw [valueAt, lastPlace, hcarry, binade_pack (by decide) (Or.inl (Nat.le_refl _)),
      Nat.add_sub_cancel_left, show ((a + 1 : Nat) : Int) - 1074 = ((a : Int) - 1074) + 1 by omega,
      zpow_add_one₀ two_ne_zero]
    push_cast
    ring

theorem exists_pack (m : Nat) :
    ∃ a n, m = a * 2 ^ 52 + n ∧ n < 2 ^ 53 ∧ (2 ^ 52 ≤ n ∨ a = 0) :=
  ⟨binade m, m - binade m * 2 ^ 52, by unfold binade; omega, by unfold binade; omega,
    by unfold binade; omega⟩

theorem valueAt_zero : valueAt 0 = 0 := by
  simp [valueAt]

theorem value_zero : zero.value = 0 := by
  rw [value_of_positive (by decide), show zero.magnitude = 0 by decide, valueAt_zero]

theorem valueAt_succ (m : Nat) : valueAt (m + 1) = valueAt m + lastPlace m := by
  obtain ⟨a, n, rfl, hn, hlead⟩ := exists_pack m
  rw [Nat.add_assoc, valueAt_pack hn (hlead.imp_left Nat.le_succ_of_le),
    valueAt_pack (Nat.le_of_lt hn) hlead, lastPlace, binade_pack hn hlead]
  push_cast
  ring

theorem valueAt_strictMono : StrictMono valueAt :=
  strictMono_nat_of_lt_succ fun m => by
    rw [valueAt_succ]
    linarith [lastPlace_pos m]

/-- A number says which double it is, up to the sign of zero. -/
theorem eq_of_value_eq {y : Double} (hsign : x.isNegative = y.isNegative)
    (hvalue : x.value = y.value) : x = y := by
  have hmagnitude : x.magnitude = y.magnitude := by
    apply valueAt_strictMono.injective
    rw [← abs_value, ← abs_value, hvalue]
  rw [← ofParts_magnitude x, ← ofParts_magnitude y, hsign, hmagnitude]

theorem valueAt_nonneg (m : Nat) : 0 ≤ valueAt m := by
  rw [← valueAt_zero]
  exact valueAt_strictMono.monotone (Nat.zero_le m)

theorem midpoint_eq (m : Nat) : midpoint m = valueAt m + lastPlace m / 2 := by
  rw [midpoint, valueAt_succ]
  ring

theorem valueAt_lt_midpoint (m : Nat) : valueAt m < midpoint m := by
  rw [midpoint_eq]
  linarith [lastPlace_pos m]

theorem midpoint_lt_valueAt (m : Nat) : midpoint m < valueAt (m + 1) := by
  rw [midpoint_eq, valueAt_succ]
  linarith [lastPlace_pos m]

theorem midpoint_strictMono : StrictMono midpoint :=
  strictMono_nat_of_lt_succ fun m => (midpoint_lt_valueAt m).trans (valueAt_lt_midpoint (m + 1))

/-- A number with a short significand, and a last bit not below half that of any double. -/
def IsShort (v : ℚ) : Prop :=
  ∃ (n : Nat) (e : Int), v = (n : ℚ) * 2 ^ e ∧ n < 2 ^ 54 ∧ -1075 ≤ e

theorem isShort_valueAt (m : Nat) : IsShort (valueAt m) := by
  obtain ⟨a, n, rfl, hn, hlead⟩ := exists_pack m
  exact ⟨n, a - 1074, valueAt_pack (Nat.le_of_lt hn) hlead, by omega, by omega⟩

theorem isShort_midpoint (m : Nat) : IsShort (midpoint m) := by
  obtain ⟨a, n, rfl, hn, hlead⟩ := exists_pack m
  refine ⟨2 * n + 1, a - 1075, ?_, by omega, by omega⟩
  rw [midpoint_eq, valueAt_pack (Nat.le_of_lt hn) hlead, lastPlace, binade_pack hn hlead,
    show (a : Int) - 1074 = (a - 1075) + 1 by omega, zpow_add_one₀ two_ne_zero]
  push_cast
  ring

theorem IsShort.exists_multiple {v : ℚ} {u : Int} (h : IsShort v)
    (hu : u ≤ -1075 ∨ (2 : ℚ) ^ (54 + u) ≤ v) : ∃ j : Nat, v = (j : ℚ) * 2 ^ u := by
  obtain ⟨n, e, rfl, hn, he⟩ := h
  have hle : u ≤ e := by
    rcases hu with hu | hu
    · omega
    · by_contra hlt
      have hn' : (n : ℚ) < 2 ^ (54 : Int) := by exact_mod_cast hn
      have hpow : (2 : ℚ) ^ e ≤ 2 ^ u := zpow_le_zpow_right₀ one_le_two (by omega)
      have hlt : (n : ℚ) * 2 ^ e < 2 ^ (54 : Int) * 2 ^ u :=
        mul_lt_mul hn' hpow (by positivity) (by positivity)
      rw [← zpow_add₀ two_ne_zero] at hlt
      exact absurd hu (not_le_of_gt hlt)
  refine ⟨n * 2 ^ (e - u).toNat, ?_⟩
  have hpow : (2 : ℚ) ^ e = 2 ^ (e - u).toNat * 2 ^ u := by
    rw [← zpow_natCast, ← zpow_add₀ two_ne_zero]
    congr 1
    omega
  rw [hpow]
  push_cast
  ring

end Double
end FrontEnd
