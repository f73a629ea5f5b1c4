import FrontEnd.Proofs.Double.Rounding

/-!
# The nearest double

A number is rounded to a finite double exactly if that is the nearest one to it, the even one of
two that are equally near, and the number is below the last midpoint.
-/

namespace FrontEnd
namespace Double

variable {v : ℚ} {m k : Nat}

/-- The double `x` is nearest to `v`, and if another is as near then it is even. -/
structure IsNearest (v : ℚ) (x : Double) : Prop where
  positive : x.isNegative = false
  finite : x.isFinite = true
  le : ∀ y : Double, y.isFinite = true → |v - x.value| ≤ |v - y.value|
  even : ∀ y : Double, y.isFinite = true → |v - x.value| = |v - y.value| →
    y.value = x.value ∨ x.significand % 2 = 0

theorem dist_le_iff {a b : ℚ} (h : a < b) : |v - b| ≤ |v - a| ↔ a + b ≤ 2 * v := by
  rw [← sq_le_sq]
  constructor
  · intro hle
    by_contra hlt
    nlinarith
  · intro hle
    nlinarith

theorem dist_ge_iff {a b : ℚ} (h : a < b) : |v - a| ≤ |v - b| ↔ 2 * v ≤ a + b := by
  rw [← sq_le_sq]
  constructor
  · intro hle
    by_contra hlt
    nlinarith
  · intro hle
    nlinarith

theorem dist_eq_iff {a b : ℚ} (h : a < b) : |v - a| = |v - b| ↔ a + b = 2 * v := by
  rw [le_antisymm_iff, dist_ge_iff h, dist_le_iff h]
  exact ⟨fun heq => by linarith, fun heq => ⟨by linarith, by linarith⟩⟩

theorem ofParts_finite (hm : m < infinityBits) : (ofParts false m).isNegative = false ∧
    (ofParts false m).isFinite = true ∧ (ofParts false m).value = valueAt m ∧
    (ofParts false m).significand % 2 = m % 2 := by
  have hbound : m < 1 <<< 63 := hm.trans (by decide)
  have hmagnitude := magnitude_ofParts false hbound
  have hpositive := isNegative_ofParts hbound
  refine ⟨hpositive, ?_, ?_, ?_⟩
  · rw [isFinite, hmagnitude]
    exact decide_eq_true hm
  · rw [value_of_positive hpositive, hmagnitude]
  · rw [significand_eq, hmagnitude]
    unfold binade
    omega

theorem isNearest_iff (hv : 0 ≤ v) (hm : m < infinityBits) : IsNearest v (ofParts false m) ↔
    ∀ k < infinityBits, |v - valueAt m| ≤ |v - valueAt k| ∧
      (|v - valueAt m| = |v - valueAt k| → k = m ∨ m % 2 = 0) := by
  obtain ⟨hpositive, hfinite, hvalue, heven⟩ := ofParts_finite hm
  constructor
  · intro h k hk
    obtain ⟨-, hfinite', hvalue', -⟩ := ofParts_finite hk
    have hle := h.le _ hfinite'
    have htie := h.even _ hfinite'
    rw [hvalue, hvalue'] at hle htie
    rw [heven] at htie
    exact ⟨hle, fun heq => (htie heq).imp_left fun hsame => valueAt_strictMono.injective hsame⟩
  · intro h
    have hsign : ∀ y : Double, |v - valueAt y.magnitude| ≤ |v - y.value| := by
      intro y
      have habs := abs_abs_sub_abs_le v y.value
      rwa [abs_of_nonneg hv, abs_value] at habs
    refine ⟨hpositive, hfinite, fun y hy => ?_, fun y hy heq => ?_⟩
    · rw [hvalue]
      exact (h _ (of_decide_eq_true hy)).1.trans (hsign y)
    · rw [hvalue] at heq ⊢
      rw [heven]
      obtain ⟨hle, htie⟩ := h _ (of_decide_eq_true hy)
      have hsame := le_antisymm hle (by rw [heq]; exact hsign y)
      refine (htie hsame).imp_left fun hk => ?_
      have hy' := abs_value y
      rw [hk] at hy'
      rcases abs_choice y.value with hpos | hneg
      · rw [← hpos, hy']
      · -- The two zeros are one number.
        have hzero := (h 0 (by decide)).1
        rw [valueAt_zero, sub_zero, abs_of_nonneg hv] at hzero
        have hnonneg := valueAt_nonneg m
        rw [show y.value = -valueAt m by linarith, sub_neg_eq_add,
          abs_of_nonneg (show 0 ≤ v + valueAt m by linarith)] at heq
        linarith

theorem RoundsTo.isNearest (h : RoundsTo v m) (hv : 0 ≤ v) (hm : m < infinityBits) :
    IsNearest v (ofParts false m) := by
  refine (isNearest_iff hv hm).2 fun k _ => ?_
  rcases lt_trichotomy k m with hk | rfl | hk
  · have hless := valueAt_strictMono hk
    obtain ⟨j, rfl⟩ := Nat.exists_eq_add_of_lt hk
    have hmono := valueAt_strictMono.monotone (Nat.le_add_right k j)
    have hmid : midpoint (k + j) = (valueAt (k + j) + valueAt (k + j + 1)) / 2 := rfl
    rw [dist_le_iff hless, eq_comm, dist_eq_iff hless]
    rcases h.below (k + j) (by omega) with hlt | ⟨heq, heven⟩
    · exact ⟨by linarith, fun hsum => by linarith⟩
    · exact ⟨by linarith, fun _ => Or.inr heven⟩
  · exact ⟨le_refl _, fun _ => Or.inl rfl⟩
  · have hless := valueAt_strictMono hk
    have hmono := valueAt_strictMono.monotone (show m + 1 ≤ k from hk)
    have hmid : midpoint m = (valueAt m + valueAt (m + 1)) / 2 := rfl
    rw [dist_ge_iff hless, dist_eq_iff hless]
    rcases h.above m (Nat.le_refl m) hm with hlt | ⟨heq, heven⟩
    · exact ⟨by linarith, fun hsum => by linarith⟩
    · exact ⟨by linarith, fun _ => Or.inr heven⟩

theorem IsNearest.roundsTo (h : IsNearest v (ofParts false m)) (hv : 0 ≤ v)
    (hm : m < infinityBits) (hlimit : v < limit) : RoundsTo v m := by
  rw [isNearest_iff hv hm] at h
  refine ⟨hm.le, fun k hk => ?_, fun k hk hlt => ?_⟩
  · obtain ⟨j, rfl⟩ := Nat.exists_eq_add_of_lt hk
    have hless := valueAt_strictMono (Nat.lt_succ_self (k + j))
    have hmono := midpoint_strictMono.monotone (Nat.le_add_right k j)
    have hmid : midpoint (k + j) = (valueAt (k + j) + valueAt (k + j + 1)) / 2 := rfl
    obtain ⟨hle, htie⟩ := h (k + j) (by omega)
    rw [dist_le_iff hless] at hle
    rw [eq_comm, dist_eq_iff hless] at htie
    refine (lt_or_eq_of_le (show midpoint k ≤ v by linarith)).imp_right fun heq => ⟨heq, ?_⟩
    exact (htie (by linarith)).resolve_left (by omega)
  · have hmono := midpoint_strictMono.monotone hk
    rcases Nat.lt_or_ge (m + 1) infinityBits with hnext | hlast
    · have hless := valueAt_strictMono (Nat.lt_succ_self m)
      have hmid : midpoint m = (valueAt m + valueAt m.succ) / 2 := rfl
      obtain ⟨hle, htie⟩ := h (m + 1) hnext
      rw [dist_ge_iff hless] at hle
      rw [dist_eq_iff hless] at htie
      refine (lt_or_eq_of_le (show v ≤ midpoint k by linarith)).imp_right fun heq => ⟨heq, ?_⟩
      exact (htie (by linarith)).resolve_left (by omega)
    · have hk' : k = infinityBits - 1 := by omega
      rw [hk', midpoint_last]
      exact Or.inl hlimit

end Double
end FrontEnd
