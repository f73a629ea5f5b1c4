import FrontEnd.Double.Decimal
import FrontEnd.Double.Shortest
import FrontEnd.Proofs.Double.Scaling

/-!
# The digits of a double

The digits that a double is written with are a point of a grid of powers of ten between the
midpoints around it, so they are rounded to that double again.  The finest grid that is tried
has a point there, because it is finer than a quarter of the last bit.
-/

namespace FrontEnd
namespace Double

variable {x : Double} {e : Int} {c : Nat}

/-! ## Powers -/

theorem zpow_eq_div {b : ℚ} (hb : b ≠ 0) (e : Int) : b ^ e = b ^ e.toNat / b ^ (-e).toNat := by
  rw [eq_div_iff (pow_ne_zero _ hb), ← zpow_natCast, ← zpow_natCast, ← zpow_add₀ hb]
  congr 1
  omega

theorem ten_zpow_le_iff (a b : Int) : (10 : ℚ) ^ a ≤ 2 ^ b ↔
    10 ^ a.toNat * 2 ^ (-b).toNat ≤ 2 ^ b.toNat * 10 ^ (-a).toNat := by
  rw [zpow_eq_div (by norm_num), zpow_eq_div two_ne_zero,
    div_le_div_iff₀ (by positivity) (by positivity)]
  exact_mod_cast Iff.rfl

/-- The least power of two that the constant in `coarsest` takes to the power of ten `q`. -/
def leastPower (q : Int) : Int :=
  (100000 * q + 30102) / 30103

theorem ten_zpow_le_leastPower : ∀ k : Fin 633,
    10 ^ ((k : Nat) - 324 - 17 : Int).toNat * 2 ^ (-(leastPower ((k : Nat) - 324) - 54)).toNat ≤
      2 ^ (leastPower ((k : Nat) - 324) - 54).toNat *
        10 ^ (-((k : Nat) - 324 - 17 : Int)).toNat := by
  decide +kernel

/-- The constant in `coarsest` is near enough to the logarithm for all doubles. -/
theorem ten_zpow_le {t : Int} (hlow : -1074 ≤ t) (hhigh : t ≤ 1023) :
    (10 : ℚ) ^ (t * 30103 / 100000 - 17) ≤ 2 ^ (t - 54) := by
  obtain ⟨k, hk, hq⟩ : ∃ k : Nat, k < 633 ∧ t * 30103 / 100000 = k - 324 :=
    ⟨(t * 30103 / 100000 + 324).toNat, by omega, by omega⟩
  have hpower : leastPower (k - 324) ≤ t := by
    unfold leastPower
    omega
  rw [hq]
  calc (10 : ℚ) ^ ((k : Int) - 324 - 17)
      ≤ 2 ^ (leastPower (k - 324) - 54) := (ten_zpow_le_iff _ _).2 (ten_zpow_le_leastPower ⟨k, hk⟩)
    _ ≤ 2 ^ (t - 54) := zpow_le_zpow_right₀ one_le_two (by omega)

/-! ## Points of a grid -/

namespace Interval

variable (i : Interval) (e : Int) (a c : Nat)

theorem gridFactor_pos : 0 < i.gridFactor e := by
  unfold gridFactor
  rw [Nat.shiftLeft_eq]
  exact Nat.mul_pos (Nat.pow_pos (by decide)) (Nat.two_pow_pos _)

theorem bitFactor_pos : 0 < i.bitFactor e := by
  unfold bitFactor
  rw [Nat.shiftLeft_eq]
  exact Nat.mul_pos (Nat.pow_pos (by decide)) (Nat.two_pow_pos _)

/-- The factors compare the grid with quarters of the last bit. -/
theorem ten_zpow_eq : (10 : ℚ) ^ e = i.gridFactor e / i.bitFactor e * 2 ^ i.scale := by
  rw [zpow_eq_div (by norm_num), zpow_eq_div two_ne_zero i.scale, gridFactor, bitFactor,
    Nat.shiftLeft_eq, Nat.shiftLeft_eq]
  push_cast [Nat.pow_eq]
  field_simp

theorem quarters_le : a * i.bitFactor e ≤ c * i.gridFactor e ↔
    (a : ℚ) * 2 ^ i.scale ≤ c * 10 ^ e := by
  have hbit : (0 : ℚ) < i.bitFactor e := by exact_mod_cast i.bitFactor_pos e
  rw [i.ten_zpow_eq e, ← mul_assoc, mul_le_mul_iff_left₀ (by positivity), ← mul_div_assoc,
    le_div_iff₀ hbit]
  exact_mod_cast Iff.rfl

theorem le_quarters : c * i.gridFactor e ≤ a * i.bitFactor e ↔
    (c : ℚ) * 10 ^ e ≤ a * 2 ^ i.scale := by
  have hbit : (0 : ℚ) < i.bitFactor e := by exact_mod_cast i.bitFactor_pos e
  rw [i.ten_zpow_eq e, ← mul_assoc, mul_le_mul_iff_left₀ (by positivity), ← mul_div_assoc,
    div_le_iff₀ hbit]
  exact_mod_cast Iff.rfl

/-- A point is in the interval if it is between its ends, or at one of them. -/
theorem has_iff : i.has e c = true ↔
    ((i.low : ℚ) * 2 ^ i.scale < c * 10 ^ e ∨
      (i.low : ℚ) * 2 ^ i.scale = c * 10 ^ e ∧ i.closed = true) ∧
    ((c : ℚ) * 10 ^ e < i.high * 2 ^ i.scale ∨
      (c : ℚ) * 10 ^ e = i.high * 2 ^ i.scale ∧ i.closed = true) := by
  unfold has
  dsimp only
  split
  · next hclosed =>
    simp only [Bool.and_eq_true, decide_eq_true_eq, quarters_le, le_quarters, hclosed, and_true,
      ← le_iff_lt_or_eq]
  · next hopen =>
    simp only [Bool.and_eq_true, decide_eq_true_eq, ← not_le, quarters_le, le_quarters, hopen,
      Bool.false_eq_true, and_false, or_false]

theorem has_of_point {i : Interval} {e : Int} {c : Nat} (h : i.point? e = some c) :
    i.has e c = true := by
  unfold point? at h
  dsimp only at h
  split at h <;> cases h
  · next hdown hup => split <;> assumption
  · assumption
  · assumption

/-- A grid as fine as quarters of the last bit has a point in the interval. -/
theorem exists_point {i : Interval} {e : Int} (hfine : i.gridFactor e ≤ i.bitFactor e)
    (hlow : i.low < i.middle) (hhigh : i.middle < i.high) : ∃ c, i.point? e = some c := by
  have hgrid := i.gridFactor_pos e
  have hdown : i.has e (i.middle * i.bitFactor e / i.gridFactor e) = true := by
    have hdiv := Nat.div_add_mod' (i.middle * i.bitFactor e) (i.gridFactor e)
    have hmod := Nat.mod_lt (i.middle * i.bitFactor e) hgrid
    have hlow' : (i.low + 1) * i.bitFactor e ≤ i.middle * i.bitFactor e :=
      Nat.mul_le_mul_right _ hlow
    have hhigh' : (i.middle + 1) * i.bitFactor e ≤ i.high * i.bitFactor e :=
      Nat.mul_le_mul_right _ hhigh
    rw [Nat.add_one_mul] at hlow' hhigh'
    unfold has
    dsimp only
    split <;> simp only [Bool.and_eq_true, decide_eq_true_eq] <;> omega
  unfold point?
  dsimp only
  rw [hdown]
  cases i.has e (i.middle * i.bitFactor e / i.gridFactor e + 1) <;> exact ⟨_, rfl⟩

end Interval

/-! ## The interval of a double -/

theorem exists_significand (x : Double) : ∃ a n, x.magnitude = a * 2 ^ 52 + n ∧ n < 2 ^ 53 ∧
    (2 ^ 52 ≤ n ∨ a = 0) ∧ binade x.magnitude = a ∧ x.significand = n := by
  obtain ⟨a, n, hm, hn, hlead⟩ := exists_pack x.magnitude
  have hbinade : binade x.magnitude = a := by rw [hm, binade_pack hn hlead]
  refine ⟨a, n, hm, hn, hlead, hbinade, ?_⟩
  rw [significand_eq, hbinade, hm]
  omega

theorem midpoint_pred {m : Nat} (hm : 0 < m) :
    midpoint (m - 1) = valueAt m - lastPlace (m - 1) / 2 := by
  have hsucc := valueAt_succ (m - 1)
  rw [Nat.sub_add_cancel hm] at hsucc
  rw [midpoint_eq, hsucc]
  ring

/-- The middle of the interval is the double, and its ends are the midpoints on both sides. -/
theorem interval_ends (hpos : 0 < x.magnitude) :
    (x.interval.low : ℚ) * 2 ^ x.interval.scale = midpoint (x.magnitude - 1) ∧
    (x.interval.high : ℚ) * 2 ^ x.interval.scale = midpoint x.magnitude ∧
    x.interval.low < x.interval.middle ∧ x.interval.middle < x.interval.high := by
  obtain ⟨a, n, hm, hn, hlead, hbinade, hsignificand⟩ := exists_significand x
  have hvalue : valueAt x.magnitude = n * 2 ^ ((a : Int) - 1074) := by
    rw [hm, valueAt_pack hn.le hlead]
  have hscale : x.interval.scale = (a : Int) - 1074 - 2 := by
    rw [interval, scale_eq, hbinade]
  have hquarter : (2 : ℚ) ^ ((a : Int) - 1074) = 4 * 2 ^ ((a : Int) - 1074 - 2) := by
    rw [show (4 : ℚ) = 2 ^ (2 : Int) by norm_num, ← zpow_add₀ two_ne_zero]
    congr 1
    omega
  have hfield : x.field = x.magnitude / 2 ^ 52 := by
    rw [field, Nat.shiftRight_eq_div_pow]
  have hlow : x.interval.low = 4 * n - if n = 2 ^ 52 ∧ 0 < a then 1 else 2 := by
    have hnarrow : (n = 2 ^ 52 ∧ 1 < x.field) ↔ (n = 2 ^ 52 ∧ 0 < a) := by omega
    rw [interval, hsignificand]
    simp only [Nat.one_shiftLeft, Bool.and_eq_true, decide_eq_true_eq, hnarrow]
  have hhigh : x.interval.high = 4 * n + 2 := by rw [interval, hsignificand]
  have hmiddle : x.interval.middle = 4 * n := by rw [interval, hsignificand]
  have hn0 : 0 < n := by omega
  rw [hlow, hhigh, hmiddle, hscale, midpoint_pred hpos, midpoint_eq, hvalue, lastPlace, lastPlace,
    hbinade, hquarter]
  refine ⟨?_, ?_, by split <;> omega, by omega⟩
  · split
    · next hnarrow =>
      -- In front of a power of two the doubles are closer together.
      have hprev : (binade (x.magnitude - 1) : Int) - 1074 = (a : Int) - 1074 - 2 + 1 := by
        unfold binade
        omega
      rw [hprev, zpow_add_one₀ two_ne_zero]
      push_cast [show 1 ≤ 4 * n by omega]
      ring
    · next hwide =>
      have hprev : (binade (x.magnitude - 1) : Int) - 1074 = (a : Int) - 1074 := by
        unfold binade
        omega
      rw [hprev, hquarter]
      push_cast [show 2 ≤ 4 * n by omega]
      ring
  · push_cast
    ring

theorem interval_closed (x : Double) : x.interval.closed = true ↔ x.magnitude % 2 = 0 := by
  rw [interval, decide_eq_true_eq, significand_eq]
  unfold binade
  omega

/-- What is between the midpoints beside a double is rounded to it. -/
theorem RoundsTo.of_midpoints {v : ℚ} {m : Nat} (hm : m ≤ infinityBits)
    (hlow : midpoint (m - 1) < v ∨ midpoint (m - 1) = v ∧ m % 2 = 0)
    (hhigh : v < midpoint m ∨ v = midpoint m ∧ m % 2 = 0) : RoundsTo v m := by
  refine ⟨hm, fun k hk => ?_, fun k hk _ => ?_⟩
  · rcases Nat.lt_or_ge k (m - 1) with hlt | hge
    · have hmono := midpoint_strictMono hlt
      exact Or.inl (hlow.elim (fun h => hmono.trans h) fun h => h.1 ▸ hmono)
    · rwa [show k = m - 1 by omega]
  · rcases Nat.lt_or_eq_of_le hk with hlt | rfl
    · have hmono := midpoint_strictMono hlt
      exact Or.inl (hhigh.elim (fun h => h.trans hmono) fun h => h.1 ▸ hmono)
    · exact hhigh

theorem roundsTo_of_has (hpos : 0 < x.magnitude) (hfin : x.isFinite = true)
    (h : x.interval.has e c = true) : RoundsTo (c * 10 ^ e) x.magnitude := by
  obtain ⟨hlow, hhigh, -⟩ := interval_ends hpos
  rw [Interval.has_iff, hlow, hhigh, interval_closed] at h
  exact .of_midpoints (of_decide_eq_true hfin).le h.1 h.2

/-! ## The digits -/

/-- The finest grid that is tried is as fine as quarters of the last bit. -/
theorem finest_le (hpos : 0 < x.magnitude) (hfin : x.isFinite = true) :
    x.interval.gridFactor (x.coarsest - 19) ≤ x.interval.bitFactor (x.coarsest - 19) := by
  have hbits : x.magnitude < 2047 <<< 52 := of_decide_eq_true hfin
  obtain ⟨a, n, hm, hn, hlead, hbinade, hsignificand⟩ := exists_significand x
  have hlog : n.log2 < 53 := (Nat.log2_lt (by omega)).2 hn
  have hpower := ten_zpow_le (t := n.log2 + ((a : Int) - 1074)) (by omega) (by omega)
  have hgrid : (10 : ℚ) ^ (x.coarsest - 19) ≤ 2 ^ x.interval.scale := by
    rw [coarsest, interval, scale_eq, hbinade, hsignificand]
    calc (10 : ℚ) ^ (((n.log2 : Int) + ((a : Int) - 1074)) * 30103 / 100000 + 2 - 19)
        = 10 ^ (((n.log2 : Int) + ((a : Int) - 1074)) * 30103 / 100000 - 17) := by
          congr 1
          omega
      _ ≤ 2 ^ ((n.log2 : Int) + ((a : Int) - 1074) - 54) := hpower
      _ ≤ 2 ^ ((a : Int) - 1074 - 2) := zpow_le_zpow_right₀ one_le_two (by omega)
  have hcompare := (x.interval.le_quarters (x.coarsest - 19) 1 1).2 (by simpa using hgrid)
  simpa using hcompare

theorem digits_roundsTo (hpos : 0 < x.magnitude) (hfin : x.isFinite = true) :
    RoundsTo (x.digits.value * 10 ^ x.digits.exponent) x.magnitude := by
  obtain ⟨-, -, hlow, hhigh⟩ := interval_ends hpos
  obtain ⟨c, hc⟩ := Interval.exists_point (finest_le hpos hfin) hlow hhigh
  unfold digits
  dsimp only
  cases hfound : (List.range 20).findSome? fun (k : Nat) =>
      (x.interval.point? (x.coarsest - k)).map fun c => Digits.mk c (x.coarsest - k) with
  | none =>
    have hnone := List.findSome?_eq_none_iff.1 hfound 19 (by decide)
    rw [Nat.cast_ofNat, hc] at hnone
    cases hnone
  | some d =>
    obtain ⟨k, -, hk⟩ := List.exists_of_findSome?_eq_some hfound
    obtain ⟨c, hc, rfl⟩ := Option.map_eq_some_iff.1 hk
    exact roundsTo_of_has hpos hfin (Interval.has_of_point hc)

end Double
end FrontEnd
