import FrontEnd.Proofs.Double.Rounding

/-!
# The double nearest to a quotient

`Double.ofRatio` rounds once, and so does everything that calls it.  A number that is rounded and
then scaled is rounded twice, which is once more than it should be where the scaled one has fewer
bits.
-/

namespace FrontEnd
namespace Double

variable {m n : Nat}

/-! ## Quotients -/

/-- A quotient is rounded to `q` if `q` times the divisor is near enough to the dividend. -/
theorem rounds_div {a b q : Nat} (hb : 0 < b)
    (hlower : 2 * (b * q) < 2 * a + b ∨ 2 * (b * q) = 2 * a + b ∧ q % 2 = 0)
    (hupper : 2 * a < 2 * (b * q) + b ∨ 2 * a = 2 * (b * q) + b ∧ q % 2 = 0) :
    Rounds ((a : ℚ) / b) q 0 := by
  have hbq : (0 : ℚ) < b := by exact_mod_cast hb
  have hlower' : 2 * ((b : ℚ) * q) < 2 * a + b ∨ 2 * ((b : ℚ) * q) = 2 * a + b ∧ q % 2 = 0 := by
    exact_mod_cast hlower
  have hupper' : 2 * (a : ℚ) < 2 * (b * q) + b ∨ 2 * (a : ℚ) = 2 * (b * q) + b ∧ q % 2 = 0 := by
    exact_mod_cast hupper
  constructor
  · rw [zpow_zero, mul_one, ← mul_div_assoc, lt_div_iff₀ hbq, eq_div_iff hbq.ne']
    exact hlower'.imp (fun hlt => by linarith) fun ⟨heq, heven⟩ => ⟨by linarith, heven⟩
  · rw [zpow_zero, mul_one, ← mul_div_assoc, div_lt_iff₀ hbq, div_eq_iff hbq.ne']
    exact hupper'.imp (fun hlt => by linarith) fun ⟨heq, heven⟩ => ⟨by linarith, heven⟩

theorem roundHalfEven_spec (a : Nat) {b : Nat} (hb : 0 < b) :
    Rounds ((a : ℚ) / b) (roundHalfEven a b) 0 := by
  have hdiv := Nat.div_add_mod a b
  have hmod := Nat.mod_lt a hb
  have hexpand : b * (a / b + 1) = b * (a / b) + b := Nat.mul_succ b (a / b)
  unfold roundHalfEven
  dsimp only
  split
  · next hup =>
    simp only [Bool.or_eq_true, Bool.and_eq_true, decide_eq_true_eq] at hup
    refine rounds_div hb ?_ ?_ <;> rw [hexpand] <;> omega
  · next hdown =>
    simp only [Bool.or_eq_true, Bool.and_eq_true, decide_eq_true_eq, not_or, not_and] at hdown
    refine rounds_div hb ?_ ?_ <;> omega

theorem two_zpow_eq (e : Int) : (2 : ℚ) ^ e = 2 ^ e.toNat / 2 ^ (-e).toNat := by
  rw [eq_div_iff (by positivity), ← zpow_natCast, ← zpow_natCast, ← zpow_add₀ two_ne_zero]
  congr 1
  omega

theorem reaches_iff {num den : Nat} (hden : 0 < den) (e : Int) :
    reaches num den e = true ↔ (2 : ℚ) ^ e ≤ num / den := by
  have hpos : (0 : ℚ) < den := by exact_mod_cast hden
  unfold reaches
  rw [decide_eq_true_eq, Nat.shiftLeft_eq, Nat.shiftLeft_eq, two_zpow_eq,
    div_le_div_iff₀ (by positivity) hpos, mul_comm den]
  exact_mod_cast Iff.rfl

theorem log2_spec (hm : 0 < m) :
    (2 : ℚ) ^ (m.log2 : Int) ≤ m ∧ (m : ℚ) < 2 ^ ((m.log2 : Int) + 1) := by
  constructor
  · rw [zpow_natCast]
    exact_mod_cast Nat.log2_self_le hm.ne'
  · have hlt : m < 2 ^ (m.log2 + 1) := Nat.lt_log2_self
    exact_mod_cast hlt

/-- The lengths of two numbers tell their quotient up to a factor of two. -/
theorem log2_div {num den : Nat} (hnum : 0 < num) (hden : 0 < den) :
    (2 : ℚ) ^ ((num.log2 : Int) - den.log2 - 1) ≤ num / den ∧
      (num : ℚ) / den < 2 ^ ((num.log2 : Int) - den.log2 + 1) := by
  have hpos : (0 : ℚ) < den := by exact_mod_cast hden
  obtain ⟨hnum, hnum'⟩ := log2_spec hnum
  obtain ⟨hden, hden'⟩ := log2_spec hden
  constructor
  · rw [le_div_iff₀ hpos]
    calc (2 : ℚ) ^ ((num.log2 : Int) - den.log2 - 1) * den
        ≤ 2 ^ ((num.log2 : Int) - den.log2 - 1) * 2 ^ ((den.log2 : Int) + 1) := by gcongr
      _ = 2 ^ (num.log2 : Int) := by
        rw [← zpow_add₀ two_ne_zero]
        congr 1
        omega
      _ ≤ num := hnum
  · rw [div_lt_iff₀ hpos]
    calc (num : ℚ) < 2 ^ ((num.log2 : Int) + 1) := hnum'
      _ = 2 ^ ((num.log2 : Int) - den.log2 + 1) * 2 ^ (den.log2 : Int) := by
        rw [← zpow_add₀ two_ne_zero]
        congr 1
        omega
      _ ≤ 2 ^ ((num.log2 : Int) - den.log2 + 1) * den := by gcongr

theorem floorLog_spec {num den : Nat} (hnum : 0 < num) (hden : 0 < den) :
    (2 : ℚ) ^ floorLog num den ≤ num / den ∧ (num : ℚ) / den < 2 ^ (floorLog num den + 1) := by
  obtain ⟨hlow, hhigh⟩ := log2_div hnum hden
  unfold floorLog
  dsimp only
  split
  · next h => exact ⟨(reaches_iff hden _).1 h, hhigh⟩
  · next h =>
    rw [reaches_iff hden, not_le] at h
    rw [Int.sub_add_cancel]
    exact ⟨hlow, h⟩

/-- What is not zero is rounded in the unit of the doubles around it. -/
theorem exists_fits {num den : Nat} (hnum : 0 < num) (hden : 0 < den) :
    ∃ n u, Fits ((num : ℚ) / den) n u ∧
      ofRatio num den = ofParts false (min (count n u) infinityBits) := by
  obtain ⟨hlow, hhigh⟩ := floorLog_spec hnum hden
  generalize hu : lastBit (floorLog num den) = u
  have hden' : 0 < den <<< u.toNat := by
    rw [Nat.shiftLeft_eq]
    positivity
  have hrounds := (roundHalfEven_spec (num <<< (-u).toNat) hden').scale u
  have hv : ((num <<< (-u).toNat : Nat) : ℚ) / (den <<< u.toNat : Nat) * 2 ^ u = num / den := by
    rw [Nat.shiftLeft_eq, Nat.shiftLeft_eq, two_zpow_eq]
    push_cast
    field_simp
  rw [hv, zero_add] at hrounds
  generalize hn : roundHalfEven (num <<< (-u).toNat) (den <<< u.toNat) = n at hrounds
  have hleast : floorLog num den - 52 ≤ u ∧ -1074 ≤ u ∧
      (u = -1074 ∨ floorLog num den = 52 + u) := by
    unfold lastBit at hu
    omega
  obtain ⟨hlog, hleast, hlead⟩ := hleast
  refine ⟨n, u, ⟨hrounds, ?_, hleast, hlead.imp_right fun hlog => ?_⟩, ?_⟩
  · have hbound : (2 : ℚ) ^ (floorLog num den + 1) ≤ 2 ^ ((53 : Nat) + u : Int) :=
      zpow_le_zpow_right₀ one_le_two (by omega)
    exact hrounds.le_two_pow (hhigh.le.trans hbound)
  · rw [hlog] at hlow
    exact ⟨hrounds.two_pow_le hlow, hlow⟩
  · unfold ofRatio count
    rw [if_neg hnum.ne']
    dsimp only
    rw [hu, hn, Nat.shiftLeft_eq]

/-! ## Scaled numbers -/

theorem midpoint_zero : midpoint 0 = 2 ^ (-1075 : Int) := by
  rw [midpoint_eq, valueAt_zero, lastPlace, show binade 0 = 0 from rfl,
    show ((0 : Nat) : Int) - 1074 = -1075 + 1 by decide, zpow_add_one₀ two_ne_zero]
  ring

theorem limit_le : limit ≤ 2 ^ (1024 : Int) := by
  rw [limit, show (1024 : Int) = 54 + 970 by decide, zpow_add₀ two_ne_zero]
  refine mul_le_mul_of_nonneg_right ?_ (by positivity)
  norm_num

theorem le_limit : (2 : ℚ) ^ (970 : Int) ≤ limit := by
  unfold limit
  exact le_mul_of_one_le_left (by positivity) (by norm_num)

/-- Half the smallest double is already rounded to zero, which is even. -/
theorem roundsTo_zero_iff {v : ℚ} : RoundsTo v 0 ↔ v ≤ 2 ^ (-1075 : Int) := by
  rw [← midpoint_zero]
  constructor
  · intro h
    exact h.le_midpoint (Nat.le_refl 0) (by decide)
  · intro hv
    refine ⟨Nat.zero_le _, fun k hk => absurd hk (Nat.not_lt_zero k), fun k _ _ => ?_⟩
    have hmono := midpoint_strictMono.monotone (Nat.zero_le k)
    exact (lt_or_eq_of_le (hv.trans hmono)).imp_right fun heq => ⟨heq, rfl⟩

theorem RoundsTo.of_large (hv : limit ≤ v) : RoundsTo v infinityBits := by
  refine ⟨Nat.le_refl _, fun k hk => ?_, fun k hk hlt => absurd hlt (Nat.not_lt_of_le hk)⟩
  rw [← midpoint_last] at hv
  have hmono : midpoint k ≤ midpoint (infinityBits - 1) := midpoint_strictMono.monotone (by omega)
  exact (lt_or_eq_of_le (hmono.trans hv)).imp_right fun heq => ⟨heq, by decide⟩

theorem ofRatio_scaled (hm : 0 < m) (e : Int) :
    ∃ k, ofRatio (m <<< e.toNat) (1 <<< (-e).toNat) = ofParts false k ∧ RoundsTo (m * 2 ^ e) k := by
  have hnum : 0 < m <<< e.toNat := by
    rw [Nat.shiftLeft_eq]
    exact Nat.mul_pos hm (Nat.two_pow_pos _)
  have hden : 0 < 1 <<< (-e).toNat := by
    rw [Nat.one_shiftLeft]
    exact Nat.two_pow_pos _
  have hv : ((m <<< e.toNat : Nat) : ℚ) / (1 <<< (-e).toNat : Nat) = m * 2 ^ e := by
    rw [Nat.shiftLeft_eq, Nat.one_shiftLeft, two_zpow_eq]
    push_cast
    ring
  obtain ⟨n, u, hfits, hround⟩ := exists_fits hnum hden
  rw [hv] at hfits
  exact ⟨min (count n u) infinityBits, hround, hfits.roundsTo⟩

/-- The powers that are not computed are out of reach. -/
theorem ofScaled_spec (m : Nat) (e : Int) :
    ∃ k, ofScaled m e = ofParts false k ∧ RoundsTo (m * 2 ^ e) k := by
  have hpow : (0 : ℚ) < 2 ^ e := by positivity
  unfold ofScaled
  by_cases hm : m = 0
  · subst hm
    refine ⟨0, by simp [zero], roundsTo_zero_iff.2 ?_⟩
    rw [Nat.cast_zero, zero_mul]
    positivity
  obtain ⟨hlow, hhigh⟩ := log2_spec (Nat.pos_of_ne_zero hm)
  by_cases hsmall : (m.log2 : Int) + e < -1100
  · refine ⟨0, by simp [hsmall, zero], roundsTo_zero_iff.2 (le_of_lt ?_)⟩
    calc (m : ℚ) * 2 ^ e < 2 ^ ((m.log2 : Int) + 1) * 2 ^ e := mul_lt_mul_of_pos_right hhigh hpow
      _ = 2 ^ ((m.log2 : Int) + 1 + e) := (zpow_add₀ two_ne_zero _ _).symm
      _ ≤ 2 ^ (-1075 : Int) := zpow_le_zpow_right₀ one_le_two (by omega)
  by_cases hlarge : 1100 < (m.log2 : Int) + e
  · refine ⟨infinityBits, by simp [hm, hsmall, hlarge, infinity], .of_large (limit_le.trans ?_)⟩
    calc (2 : ℚ) ^ (1024 : Int) ≤ 2 ^ ((m.log2 : Int) + e) :=
          zpow_le_zpow_right₀ one_le_two (by omega)
      _ = 2 ^ (m.log2 : Int) * 2 ^ e := zpow_add₀ two_ne_zero _ _
      _ ≤ m * 2 ^ e := mul_le_mul_of_nonneg_right hlow hpow.le
  obtain ⟨k, hround, hrounds⟩ := ofRatio_scaled (Nat.pos_of_ne_zero hm) e
  exact ⟨k, by simp [hm, hsmall, hlarge, hround], hrounds⟩

/-- Scaling rounds once. -/
theorem scaleBy_spec {x : Double} (hx : x.isNegative = false) (e : Int) :
    ∃ k, x.scaleBy e = ofParts false k ∧ RoundsTo (x.value * 2 ^ e) k := by
  have hv : x.value * 2 ^ e = x.significand * 2 ^ (x.scale + e) := by
    rw [value, hx, if_neg Bool.false_ne_true, one_mul, zpow_add₀ two_ne_zero, mul_assoc]
  rw [hv]
  exact ofScaled_spec x.significand (x.scale + e)

/-- A natural number that is not zero is rounded in the unit around it. -/
theorem ofNat_spec (hm : 0 < m) (hlt : m < 2 ^ 64) : ∃ n u, Fits m n u ∧ 2 ^ 52 ≤ n ∧
    (2 : ℚ) ^ (52 + u) ≤ m ∧ (ofNat m).isNegative = false ∧ (ofNat m).value = n * 2 ^ u := by
  obtain ⟨n, u, hfits, hround⟩ := exists_fits hm Nat.one_pos
  rw [Nat.cast_one, div_one] at hfits
  have hlead : (2 : ℚ) ^ (52 + u) ≤ m := by
    rcases hfits.lead with rfl | ⟨-, hlead⟩
    · calc (2 : ℚ) ^ (52 + -1074 : Int) ≤ 1 := zpow_le_one_of_nonpos₀ one_le_two (by decide)
        _ ≤ m := by exact_mod_cast hm
    · exact hlead
  have hn : 2 ^ 52 ≤ n := hfits.rounds.two_pow_le hlead
  have hcount : count n u < infinityBits := by
    by_contra hpast
    have hrounds := hfits.roundsTo
    rw [Nat.min_eq_right (by omega)] at hrounds
    have hlimit := hrounds.eq_infinityBits_iff.1 rfl
    have hpow : (2 : ℚ) ^ (64 : Int) ≤ 2 ^ (970 : Int) :=
      zpow_le_zpow_right₀ one_le_two (by decide)
    have hm' : (m : ℚ) < 2 ^ (64 : Int) := by exact_mod_cast hlt
    exact absurd hlimit (not_le_of_gt (hm'.trans_le (hpow.trans le_limit)))
  rw [Nat.min_eq_left hcount.le] at hround
  have hbound : count n u < 1 <<< 63 := hcount.trans (by decide)
  have hpositive := isNegative_ofParts hbound
  refine ⟨n, u, hfits, hn, hlead, ?_, ?_⟩
  · rw [ofNat, hround, hpositive]
  · rw [ofNat, hround, value_of_positive hpositive, magnitude_ofParts false hbound,
      hfits.valueAt_count]

/-- A number that is rounded and then scaled is rounded to the right double, unless the scaled one
has fewer bits.  But then no double is passed. -/
theorem ofNat_scaled (hlt : m < 2 ^ 64) (s : Int) :
    ((∀ k, RoundsTo ((ofNat m).value * 2 ^ s) k → RoundsTo (m * 2 ^ s) k) ∧
      ∃ j, (ofNat m).value * 2 ^ s = valueAt j) ∨
    Follows ((ofNat m).value * 2 ^ s) (m * 2 ^ s) := by
  rcases Nat.eq_zero_or_pos m with rfl | hm
  · have hzero : (ofNat 0).value = 0 := by
      rw [value_of_positive (by decide)]
      exact valueAt_zero
    rw [hzero, Nat.cast_zero]
    exact Or.inr fun q _ => ⟨id, id⟩
  obtain ⟨n, u, hfits, hn, hlead, -, hvalue⟩ := ofNat_spec hm hlt
  have hscaled : (ofNat m).value * 2 ^ s = n * 2 ^ (u + s) := by
    rw [hvalue, zpow_add₀ two_ne_zero, mul_assoc]
  have hrounds := hfits.rounds.scale s
  rw [hscaled]
  by_cases hleast : -1074 ≤ u + s
  · have hinexact : Fits (m * 2 ^ s) n (u + s) := by
      refine ⟨hrounds, hfits.le, hleast, Or.inr ⟨hn, ?_⟩⟩
      rw [← add_assoc, zpow_add₀ two_ne_zero]
      exact mul_le_mul_of_nonneg_right hlead (by positivity)
    have hexact : Fits (n * 2 ^ (u + s)) n (u + s) := by
      refine ⟨.self n (u + s), hfits.le, hleast, Or.inr ⟨hn, ?_⟩⟩
      have hn' : (2 : ℚ) ^ (52 : Int) ≤ n := by exact_mod_cast hn
      rw [zpow_add₀ two_ne_zero]
      exact mul_le_mul_of_nonneg_right hn' (by positivity)
    refine Or.inl ⟨fun k hk => ?_, count n (u + s), hexact.valueAt_count.symm⟩
    rw [hk.unique hexact.roundsTo]
    exact hinexact.roundsTo
  · exact Or.inr (hrounds.follows (by omega))

end Double
end FrontEnd
