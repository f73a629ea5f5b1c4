import FrontEnd.Proofs.Double.Value

/-!
# Rounding to the nearest double

A number is rounded to a double by the midpoints between which it lies, and to infinity from the
last of them on.  In the unit of the doubles around it this is rounding to an integer.
-/

namespace FrontEnd
namespace Double

variable {v w : ℚ} {m n k : Nat} {u : Int}

theorem isNegative_ofParts (hm : m < 1 <<< 63) : (ofParts false m).isNegative = false := by
  simp only [isNegative, ofParts, UInt64.toNat_ofNat', decide_eq_false_iff_not]
  simp
  omega

/-! ## Between midpoints -/

/-- The number `v` is rounded to the double with the bits `m` below its sign, and half way to an
even one.  All from the last midpoint on is rounded to infinity. -/
structure RoundsTo (v : ℚ) (m : Nat) : Prop where
  le : m ≤ infinityBits
  below : ∀ k < m, midpoint k < v ∨ midpoint k = v ∧ m % 2 = 0
  above : ∀ k, m ≤ k → k < infinityBits → v < midpoint k ∨ v = midpoint k ∧ m % 2 = 0

/-- Half a step beyond the largest finite double. -/
def limit : ℚ :=
  (2 ^ 54 - 1) * 2 ^ (970 : Int)

theorem midpoint_last : midpoint (infinityBits - 1) = limit := by
  have hbits : infinityBits - 1 = 2045 * 2 ^ 52 + (2 ^ 53 - 1) := by decide
  rw [midpoint_eq, hbits, valueAt_pack (by decide) (Or.inl (by decide)), lastPlace,
    binade_pack (by decide) (Or.inl (by decide)), limit,
    show ((2045 : Nat) : Int) - 1074 = 970 + 1 by decide, zpow_add_one₀ two_ne_zero]
  generalize (2 : ℚ) ^ (970 : Int) = t
  push_cast
  ring

namespace RoundsTo

theorem midpoint_le (h : RoundsTo v m) (hk : k < m) : midpoint k ≤ v :=
  (h.below k hk).elim le_of_lt fun heq => heq.1.le

theorem le_midpoint (h : RoundsTo v m) (hk : m ≤ k) (hlt : k < infinityBits) : v ≤ midpoint k :=
  (h.above k hk hlt).elim le_of_lt fun heq => heq.1.le

theorem eq_infinityBits_iff (h : RoundsTo v m) : m = infinityBits ↔ limit ≤ v := by
  rw [← midpoint_last]
  constructor
  · rintro rfl
    exact h.midpoint_le (by decide)
  · intro hv
    by_contra hm
    have hlt := Nat.lt_of_le_of_ne h.le hm
    rcases h.above (infinityBits - 1) (by omega) (by decide) with hv' | ⟨hv', heven⟩
    · exact absurd hv (not_le_of_gt hv')
    · -- The largest finite double is odd, and the one before it is not beside this midpoint.
      have hodd : (infinityBits - 1) % 2 = 1 := by decide
      have hless : m < infinityBits - 1 := by omega
      have hmid := midpoint_strictMono hless
      have hle := h.le_midpoint (Nat.le_refl m) hlt
      linarith

theorem unique (h : RoundsTo v m) (h' : RoundsTo v n) : m = n := by
  have hle : ∀ {m n}, RoundsTo v m → RoundsTo v n → m ≤ n := by
    intro m n h h'
    by_contra hlt
    have hn : n < infinityBits := by
      have := h.le
      omega
    have hbelow := h.midpoint_le (show n < m by omega)
    have habove := h'.le_midpoint (Nat.le_refl n) hn
    rcases h.below n (by omega) with hv | ⟨-, heven⟩
    · linarith
    rcases h'.above n (Nat.le_refl n) hn with hv | ⟨-, heven'⟩
    · linarith
    -- Two even counts are not next to each other.
    have hnext := h.midpoint_le (show n + 1 < m by omega)
    have hmono := midpoint_strictMono (show n < n + 1 by omega)
    linarith
  exact Nat.le_antisymm (hle h h') (hle h' h)

theorem le_of_le (h : RoundsTo v m) (hk : k ≤ infinityBits) (hv : valueAt k ≤ v) : k ≤ m := by
  by_contra hlt
  have hmono := valueAt_strictMono.monotone (show m + 1 ≤ k by omega)
  have hmid := midpoint_lt_valueAt m
  have hle := h.le_midpoint (Nat.le_refl m) (by omega)
  linarith

theorem ge_of_ge (h : RoundsTo v m) (hv : v ≤ valueAt k) : m ≤ k := by
  by_contra hlt
  have hmid := valueAt_lt_midpoint k
  have hle := h.midpoint_le (show k < m by omega)
  linarith

theorem half (h : RoundsTo (midpoint k) m) (hk : k < infinityBits) :
    m % 2 = 0 ∧ (m = k ∨ m = k + 1) := by
  constructor
  · rcases Nat.lt_or_ge k m with hlt | hge
    · exact (h.below k hlt).elim (fun habs => absurd habs (lt_irrefl _)) And.right
    · exact (h.above k hge hk).elim (fun habs => absurd habs (lt_irrefl _)) And.right
  · by_contra hne
    rcases Nat.lt_or_ge k m with hlt | hge
    · have hle := h.midpoint_le (show k + 1 < m by omega)
      exact absurd hle (not_le_of_gt (midpoint_strictMono (by omega)))
    · have hle := h.le_midpoint (Nat.le_refl m) (by omega)
      exact absurd hle (not_le_of_gt (midpoint_strictMono (by omega)))

end RoundsTo

/-- On the way from `v` to `w` no double and no midpoint is passed. -/
def Follows (w v : ℚ) : Prop :=
  ∀ q, IsShort q → (q ≤ v → q ≤ w) ∧ (v ≤ q → w ≤ q)

theorem Follows.trans {t : ℚ} (hw : Follows w t) (ht : Follows t v) : Follows w v :=
  fun q hq => ⟨fun hle => (hw q hq).1 ((ht q hq).1 hle), fun hge => (hw q hq).2 ((ht q hq).2 hge)⟩

/-- Where `w` is half way between two doubles, it is rounded to the side on which `v` is. -/
def Agrees (w v : ℚ) : Prop :=
  ∀ k < infinityBits, w = midpoint k → (w < v → k % 2 = 1) ∧ (v < w → k % 2 = 0)

/-- A number between two others has no other side than they have. -/
theorem Follows.agrees {t : ℚ} (hw : Follows w t) (h : Agrees w v) : Agrees t v := by
  intro k hk heq
  have hside := hw t (heq ▸ isShort_midpoint k)
  have hsame : w = t := le_antisymm (hside.2 le_rfl) (hside.1 le_rfl)
  rw [← hsame] at heq ⊢
  exact h k hk heq

theorem agrees_valueAt (m : Nat) (v : ℚ) : Agrees (valueAt m) v := by
  intro k _ hk
  have hlow := valueAt_lt_midpoint k
  have hhigh := midpoint_lt_valueAt k
  rw [← hk] at hlow hhigh
  have hlow' := valueAt_strictMono.lt_iff_lt.1 hlow
  have hhigh' := valueAt_strictMono.lt_iff_lt.1 hhigh
  omega

namespace Follows

/-- Two numbers are rounded to the same double, if they are so where the one is half way. -/
theorem roundsTo_iff (hw : Follows w v) (h : RoundsTo w m) : RoundsTo v m ↔ Agrees w v := by
  have hle := fun k => (hw _ (isShort_midpoint k)).1
  have hge := fun k => (hw _ (isShort_midpoint k)).2
  constructor
  · intro hv k hk heq
    rw [heq] at h ⊢
    obtain ⟨heven, hm⟩ := h.half hk
    constructor
    · intro hlt
      by_contra hodd
      exact absurd (hv.le_midpoint (by omega) hk) (not_le_of_gt hlt)
    · intro hlt
      by_contra hodd
      exact absurd (hv.midpoint_le (by omega)) (not_le_of_gt hlt)
  · intro hagrees
    have hside : ∀ k < infinityBits, w = midpoint k →
        (midpoint k < v → m = k + 1) ∧ (v < midpoint k → m = k) := by
      intro k hk heq
      obtain ⟨heven, hm⟩ := (heq ▸ h).half hk
      obtain ⟨habove, hbelow⟩ := heq ▸ hagrees k hk heq
      exact ⟨fun hlt => by have := habove hlt; omega, fun hlt => by have := hbelow hlt; omega⟩
    refine ⟨h.le, fun k hk => ?_, fun k hk hlt => ?_⟩
    · rcases lt_trichotomy (midpoint k) v with hv | hv | hv
      · exact Or.inl hv
      · have heq := le_antisymm (hge k hv.ge) (h.midpoint_le hk)
        exact Or.inr ⟨hv, (heq ▸ h).half (hk.trans_le h.le) |>.1⟩
      · have heq := le_antisymm (hge k hv.le) (h.midpoint_le hk)
        have hm := (hside k (hk.trans_le h.le) heq).2 hv
        omega
    · rcases lt_trichotomy v (midpoint k) with hv | hv | hv
      · exact Or.inl hv
      · have heq := le_antisymm (h.le_midpoint hk hlt) (hle k hv.ge)
        exact Or.inr ⟨hv, (heq ▸ h).half hlt |>.1⟩
      · have heq := le_antisymm (h.le_midpoint hk hlt) (hle k hv.le)
        have hm := (hside k hlt heq).1 hv
        omega

/-- The one is not rounded past a double that is beside the other. -/
theorem beside (hw : Follows w v) (h : RoundsTo w m) :
    (∀ k ≤ infinityBits, valueAt k ≤ v → k ≤ m) ∧ ∀ k, v ≤ valueAt k → m ≤ k :=
  ⟨fun k hk hle => h.le_of_le hk ((hw _ (isShort_valueAt k)).1 hle),
    fun k hge => h.ge_of_ge ((hw _ (isShort_valueAt k)).2 hge)⟩

end Follows

/-! ## Rounding to a multiple -/

/-- The number `v` in units of `2 ^ u` is rounded to the integer `n`, and half way to an even
one. -/
structure Rounds (v : ℚ) (n : Nat) (u : Int) : Prop where
  lower : (2 * n - 1) * 2 ^ u < 2 * v ∨ (2 * n - 1) * 2 ^ u = 2 * v ∧ n % 2 = 0
  upper : 2 * v < (2 * n + 1) * 2 ^ u ∨ 2 * v = (2 * n + 1) * 2 ^ u ∧ n % 2 = 0

namespace Rounds

theorem self (n : Nat) (u : Int) : Rounds (n * 2 ^ u) n u := by
  have hpos : (0 : ℚ) < 2 ^ u := by positivity
  exact ⟨Or.inl (by linarith), Or.inl (by linarith)⟩

theorem scale (h : Rounds v n u) (s : Int) : Rounds (v * 2 ^ s) n (u + s) := by
  have hpos : (0 : ℚ) < 2 ^ s := by positivity
  obtain ⟨hlower, hupper⟩ := h
  constructor
  · rw [zpow_add₀ two_ne_zero, ← mul_assoc, ← mul_assoc]
    exact hlower.imp (fun hlt => mul_lt_mul_of_pos_right hlt hpos)
      fun heq => ⟨by rw [heq.1], heq.2⟩
  · rw [zpow_add₀ two_ne_zero, ← mul_assoc, ← mul_assoc]
    exact hupper.imp (fun hlt => mul_lt_mul_of_pos_right hlt hpos)
      fun heq => ⟨by rw [heq.1], heq.2⟩

theorem le_of_le {j : Nat} (h : Rounds v n u) (hj : (j : ℚ) * 2 ^ u ≤ v) : j ≤ n := by
  have hpos : (0 : ℚ) < 2 ^ u := by positivity
  have hle : (2 * (j : ℚ)) * 2 ^ u ≤ (2 * n + 1) * 2 ^ u := by
    rcases h.upper with hlt | ⟨heq, -⟩ <;> linarith
  have hcast : ((2 * j : Nat) : ℚ) ≤ ((2 * n + 1 : Nat) : ℚ) := by
    push_cast
    exact le_of_mul_le_mul_right hle hpos
  have hnat : 2 * j ≤ 2 * n + 1 := by exact_mod_cast hcast
  omega

theorem ge_of_ge {j : Nat} (h : Rounds v n u) (hj : v ≤ (j : ℚ) * 2 ^ u) : n ≤ j := by
  have hpos : (0 : ℚ) < 2 ^ u := by positivity
  have hle : (2 * (n : ℚ)) * 2 ^ u ≤ (2 * j + 1) * 2 ^ u := by
    rcases h.lower with hlt | ⟨heq, -⟩ <;> linarith
  have hcast : ((2 * n : Nat) : ℚ) ≤ ((2 * j + 1 : Nat) : ℚ) := by
    push_cast
    exact le_of_mul_le_mul_right hle hpos
  have hnat : 2 * n ≤ 2 * j + 1 := by exact_mod_cast hcast
  omega

theorem two_pow_le (h : Rounds v n u) (hk : (2 : ℚ) ^ (k + u) ≤ v) : 2 ^ k ≤ n := by
  refine h.le_of_le ?_
  rwa [Nat.cast_pow, Nat.cast_ofNat, ← zpow_natCast, ← zpow_add₀ two_ne_zero]

theorem le_two_pow (h : Rounds v n u) (hk : v ≤ (2 : ℚ) ^ (k + u)) : n ≤ 2 ^ k := by
  refine h.ge_of_ge ?_
  rwa [Nat.cast_pow, Nat.cast_ofNat, ← zpow_natCast, ← zpow_add₀ two_ne_zero]

/-- In a unit so small every double and every midpoint is a multiple. -/
theorem follows (h : Rounds v n u) (hu : u ≤ -1075) : Follows (n * 2 ^ u) v := by
  intro q hq
  have hunit : (0 : ℚ) ≤ 2 ^ u := by positivity
  obtain ⟨j, rfl⟩ := hq.exists_multiple (Or.inl hu)
  constructor
  · intro hle
    have hj : (j : ℚ) ≤ n := by exact_mod_cast h.le_of_le hle
    exact mul_le_mul_of_nonneg_right hj hunit
  · intro hge
    have hj : (n : ℚ) ≤ j := by exact_mod_cast h.ge_of_ge hge
    exact mul_le_mul_of_nonneg_right hj hunit

end Rounds

/-- The unit `2 ^ u` is that of the doubles around `v`, which is rounded to `n` of them. -/
structure Fits (v : ℚ) (n : Nat) (u : Int) : Prop where
  rounds : Rounds v n u
  le : n ≤ 2 ^ 53
  least : -1074 ≤ u
  lead : u = -1074 ∨ 2 ^ 52 ≤ n ∧ 2 ^ (52 + u) ≤ v

def count (n : Nat) (u : Int) : Nat :=
  (u + 1074).toNat * 2 ^ 52 + n

namespace Fits

theorem valueAt_count (h : Fits v n u) : valueAt (count n u) = n * 2 ^ u := by
  have hleast := h.least
  rw [count, valueAt_pack h.le (h.lead.symm.imp And.left fun hu => by omega)]
  congr 2
  omega

theorem count_mod (n : Nat) (u : Int) : count n u % 2 = n % 2 := by
  unfold count
  omega

theorem below_last (h : Fits v n u) (hk : k + 1 = count n u) :
    midpoint k < v ∨ midpoint k = v ∧ count n u % 2 = 0 := by
  have hleast := h.least
  have hmid : midpoint k = n * 2 ^ u - lastPlace k / 2 := by
    rw [← h.valueAt_count, ← hk, valueAt_succ, midpoint_eq]
    ring
  rw [hmid, count_mod]
  by_cases hpower : n = 2 ^ 52 ∧ u ≠ -1074
  · -- In front of a power of two the doubles are closer together.
    obtain ⟨rfl, hu⟩ := hpower
    have hv := (h.lead.resolve_left hu).2
    rw [zpow_add₀ two_ne_zero] at hv
    have hplace := lastPlace_pos k
    push_cast
    norm_num at hv ⊢
    left
    linarith
  · have hplace : lastPlace k = 2 ^ u := by
      have hk' : k = (u + 1074).toNat * 2 ^ 52 + (n - 1) := by
        unfold count at hk
        have := h.lead
        omega
      have hlead : 2 ^ 52 ≤ n - 1 ∨ (u + 1074).toNat = 0 := by
        have := h.lead
        omega
      have hle := h.le
      rw [lastPlace, hk', binade_pack (by omega) hlead]
      congr 1
      omega
    rw [hplace]
    rcases h.rounds.lower with hlt | ⟨heq, heven⟩
    · exact Or.inl (by linarith)
    · exact Or.inr ⟨by linarith, heven⟩

theorem below (h : Fits v n u) (hk : k < count n u) :
    midpoint k < v ∨ midpoint k = v ∧ count n u % 2 = 0 := by
  rcases Nat.lt_or_ge (k + 1) (count n u) with hlt | hge
  · have hmono : midpoint k < midpoint (count n u - 1) := midpoint_strictMono (by omega)
    rcases h.below_last (k := count n u - 1) (by omega) with hv | ⟨hv, -⟩ <;>
      exact Or.inl (by linarith)
  · exact h.below_last (by omega)

theorem above (h : Fits v n u) (hk : count n u ≤ k) :
    v < midpoint k ∨ v = midpoint k ∧ count n u % 2 = 0 := by
  have hplace : (2 : ℚ) ^ u ≤ lastPlace (count n u) := by
    refine zpow_le_zpow_right₀ one_le_two ?_
    have hleast := h.least
    have hlead := h.lead
    unfold binade count
    omega
  have hmid : n * 2 ^ u + lastPlace (count n u) / 2 ≤ midpoint k := by
    rw [← h.valueAt_count, ← midpoint_eq]
    exact midpoint_strictMono.monotone hk
  rw [count_mod]
  rcases h.rounds.upper with hlt | ⟨heq, heven⟩
  · exact Or.inl (by linarith)
  · exact (lt_or_eq_of_le (show v ≤ midpoint k by linarith)).imp_right fun heq => ⟨heq, heven⟩

theorem roundsTo (h : Fits v n u) : RoundsTo v (min (count n u) infinityBits) := by
  refine ⟨Nat.min_le_right _ _, fun k hk => ?_, fun k hk hlt => ?_⟩
  · rcases Nat.lt_or_ge infinityBits (count n u) with hpast | hwithin
    · rw [Nat.min_eq_right hpast.le] at hk
      have hmono := midpoint_strictMono (Nat.lt_succ_self k)
      rcases h.below (k := k + 1) (by omega) with hv | ⟨hv, -⟩ <;> exact Or.inl (by linarith)
    · rw [Nat.min_eq_left hwithin] at hk ⊢
      exact h.below hk
  · rw [Nat.min_eq_left (by omega)]
    exact h.above (by omega)

end Fits

end Double
end FrontEnd
