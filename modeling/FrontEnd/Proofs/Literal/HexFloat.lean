import FrontEnd.Proofs.Double.Nearest
import FrontEnd.Proofs.Literal.Conversion
import FrontEnd.Proofs.Literal.Mantissa

/-!
# The value of a hexadecimal float

The converter keeps the front of the digits, rounds it to a double and scales that.  So what it
gives is never past a double that is beside the number, but it is not always the nearest one: what
is lost behind a midpoint no longer counts, and a double that is scaled below the normal ones is
rounded twice.
-/

namespace FrontEnd
namespace Literal

open Double (Agrees Follows RoundsTo infinityBits ofParts valueAt)

variable {v : ℚ} {k : Nat}

/-- The number `v` is read as the double nearest to it, and as an overflow if it is rounded beyond
the largest. -/
inductive Rounded (v : ℚ) : Except LiteralError Double → Prop where
  | nearest {x : Double} (hlt : v < Double.limit) (h : Double.IsNearest v x) : Rounded v (.ok x)
  | excess (hle : Double.limit ≤ v) : Rounded v (.error .overflow)

/-- The number `v` is read as one of the doubles on its two sides, and as itself if it is a double.
Beyond the largest the other side is an overflow, and from the next power of two on the only one. -/
inductive Faithful (v : ℚ) : Except LiteralError Double → Prop where
  | beside {x : Double} (hpositive : x.isNegative = false) (hfinite : x.isFinite = true)
    (hlt : v < 2 ^ (1024 : Int))
    (below : ∀ y : Double, y.isFinite = true → y.value ≤ v → y.value ≤ x.value)
    (above : ∀ y : Double, y.isFinite = true → v ≤ y.value → x.value ≤ y.value) : Faithful v (.ok x)
  | excess (h : ∀ y : Double, y.isFinite = true → y.value < v) : Faithful v (.error .overflow)

theorem finite_ofParts (hk : k < infinityBits) : finite (ofParts false k) = .ok (ofParts false k) :=
  if_pos (Double.ofParts_finite hk).2.1

theorem finite_infinity : finite Double.infinity = .error .overflow := by
  decide

theorem rounded_iff (hv : 0 ≤ v) (hk : k ≤ infinityBits) :
    Rounded v (finite (ofParts false k)) ↔ RoundsTo v k := by
  rcases Nat.lt_or_eq_of_le hk with hlt | rfl
  · rw [finite_ofParts hlt]
    constructor
    · rintro (⟨hlimit, h⟩ | -)
      exact h.roundsTo hv hlt hlimit
    · intro h
      refine .nearest (not_le.1 fun hlimit => ?_) (h.isNearest hv hlt)
      exact hlt.ne (h.eq_infinityBits_iff.2 hlimit)
  · rw [show ofParts false infinityBits = Double.infinity from rfl, finite_infinity]
    constructor
    · rintro (- | hlimit)
      exact .of_large hlimit
    · intro h
      exact .excess (h.eq_infinityBits_iff.1 rfl)

theorem rounded_zero (hv : 0 ≤ v) : Rounded v (.ok .zero) ↔ v ≤ 2 ^ (-1075 : Int) := by
  rw [Double.zero, ← finite_ofParts (k := 0) (by decide), rounded_iff hv (Nat.zero_le _),
    Double.roundsTo_zero_iff]

theorem valueAt_infinityBits : valueAt infinityBits = 2 ^ (1024 : Int) := by
  rw [show infinityBits = 2046 * 2 ^ 52 + 2 ^ 52 by decide,
    Double.valueAt_pack (by decide) (Or.inl (Nat.le_refl _)), Nat.cast_pow, Nat.cast_ofNat,
    ← zpow_natCast, ← zpow_add₀ two_ne_zero]
  rfl

theorem faithful_of_beside (hv : 0 ≤ v) (hk : k ≤ infinityBits)
    (hbelow : ∀ j ≤ infinityBits, valueAt j ≤ v → j ≤ k) (habove : ∀ j, v ≤ valueAt j → k ≤ j) :
    Faithful v (finite (ofParts false k)) := by
  have hnonneg : ∀ {y : Double}, v ≤ y.value → y.value = valueAt y.magnitude :=
    fun h => Double.value_of_nonneg (hv.trans h)
  rcases Nat.lt_or_eq_of_le hk with hlt | rfl
  · obtain ⟨hpositive, hfinite, hvalue, -⟩ := Double.ofParts_finite hlt
    rw [finite_ofParts hlt]
    refine .beside hpositive hfinite (not_le.1 fun hlarge => ?_) (fun y hy hle => ?_)
      fun y _ hge => ?_
    · rw [← valueAt_infinityBits] at hlarge
      exact absurd (hbelow _ (Nat.le_refl _) hlarge) (Nat.not_le_of_lt hlt)
    · rw [hvalue]
      rcases lt_or_ge y.value 0 with hneg | hpos
      · exact hneg.le.trans (Double.valueAt_nonneg k)
      · rw [Double.value_of_nonneg hpos] at hle ⊢
        exact Double.valueAt_strictMono.monotone (hbelow _ (of_decide_eq_true hy).le hle)
    · rw [hvalue, hnonneg hge]
      rw [hnonneg hge] at hge
      exact Double.valueAt_strictMono.monotone (habove _ hge)
  · rw [show ofParts false infinityBits = Double.infinity from rfl, finite_infinity]
    refine .excess fun y hy => not_le.1 fun hge => ?_
    rw [hnonneg hge] at hge
    exact absurd (habove _ hge) (Nat.not_le_of_lt (of_decide_eq_true hy))

/-! ## From the mantissa -/

namespace Mantissa

variable {m : Mantissa} {p : Nat} {e : Int}

/-- The number that is kept, if it is rounded before it is scaled. -/
def rounded (m : Mantissa) : ℚ :=
  (Double.ofNat m.bits).value * 2 ^ m.scale

theorem toDouble_spec (hm : m.bits < 2 ^ 64) :
    ∃ k, m.toDouble = ofParts false k ∧ RoundsTo m.rounded k := by
  refine Double.scaleBy_spec ?_ m.scale
  rcases Nat.eq_zero_or_pos m.bits with hzero | hpos
  · rw [hzero]
    decide
  · obtain ⟨-, -, -, -, -, hpositive, -⟩ := Double.ofNat_spec hpos hm
    exact hpositive

/-- The two steps in which digits are lost do no harm, unless what they leave is half way between
two doubles. -/
theorem IsFront.finite_toDouble (h : m.IsFront p e) :
    Faithful (p * 2 ^ e) (finite m.toDouble) ∧
      (Rounded (p * 2 ^ e) (finite m.toDouble) ↔
        Agrees m.value (p * 2 ^ e) ∧ Agrees m.rounded (p * 2 ^ e)) := by
  have hm : m.bits < 2 ^ 64 := by
    obtain ⟨_, _, hkeeps⟩ := h
    exact hkeeps.bits_lt
  have hv : (0 : ℚ) ≤ p * 2 ^ e := by positivity
  obtain ⟨k, hk, hrounds⟩ := toDouble_spec hm
  rw [hk, rounded_iff hv hrounds.le]
  rcases Double.ofNat_scaled hm m.scale with ⟨hscaled, j, hj⟩ | hfollows
  · have hvalue := hscaled k hrounds
    obtain ⟨hbelow, habove⟩ := h.follows.beside hvalue
    refine ⟨faithful_of_beside hv hrounds.le hbelow habove, ?_⟩
    rw [h.follows.roundsTo_iff hvalue, rounded, hj]
    exact ⟨fun hagrees => ⟨hagrees, Double.agrees_valueAt j _⟩, And.left⟩
  · have hall : Follows m.rounded (p * 2 ^ e) := Follows.trans hfollows h.follows
    obtain ⟨hbelow, habove⟩ := hall.beside hrounds
    refine ⟨faithful_of_beside hv hrounds.le hbelow habove, ?_⟩
    rw [hall.roundsTo_iff hrounds]
    exact ⟨fun hagrees => ⟨Follows.agrees hfollows hagrees, hagrees⟩, And.right⟩

end Mantissa

/-! ## From the text -/

variable {w : String} {ws fs : List Nat} {e : Int}

/-- Without separators, and whatever the case of its letters, `w` is `0x` with the digits `ws`
before the point and `fs` behind it, and with the exponent `e`. -/
inductive IsHexFloat (w : String) : List Nat → List Nat → Int → Prop where
  | intro {whole : List Char} {fraction : Option (List Char)} {sign : Option Char}
    {ds : List Char} {ws fs : List Nat} {n : Nat}
    (hw : cleaned w.toList =
      '0' :: 'x' :: (whole ++ Numeral.pointed fraction ++ 'p' :: (sign.toList ++ ds)))
    (hwhole : whole.mapM Base.hexadecimal.digit? = some ws)
    (hfraction : (fraction.getD []).mapM Base.hexadecimal.digit? = some fs)
    (hne : ws ++ fs ≠ []) (hsign : ∀ c ∈ sign, c = '+' ∨ c = '-') (hds : ds ≠ [])
    (hn : Base.decimal.number? ds = some n) :
    IsHexFloat w ws fs (if sign = some '-' then -(n : Int) else n)

def hexNumber (ws fs : List Nat) (e : Int) : ℚ :=
  (Nat.ofDigits 16 (ws ++ fs).reverse : Nat) * 2 ^ (e - 4 * fs.length)

theorem hexNumber_nonneg (ws fs : List Nat) (e : Int) : 0 ≤ hexNumber ws fs e := by
  unfold hexNumber
  positivity

theorem hexDigits_of_mapM {cs : List Char} {vs : List Nat}
    (h : cs.mapM Base.hexadecimal.digit? = some vs) :
    (∀ c ∈ cs, isHexDigit c = true) ∧ cs.map hexDigitValue = vs ∧ ∀ d ∈ vs, d < 16 := by
  have hcs : ∀ c ∈ cs, isHexDigit c = true := fun c hc => Base.takes_of_digits
    (b := .hexadecimal) (mem_digits_of_number? (number?_eq_some.2 ⟨vs, h, rfl⟩) c hc)
  have hvs : cs.map hexDigitValue = vs := Option.some.inj ((mapM_digit? hcs).symm.trans h)
  refine ⟨hcs, hvs, fun d hd => ?_⟩
  obtain ⟨c, hc, rfl⟩ := List.mem_map.1 (hvs ▸ hd)
  exact of_decide_eq_true (of_isHexDigit (fun c => hexDigitValue c < 16) (by decide) (hcs c hc))

theorem IsHexFloat.digits_lt (h : IsHexFloat w ws fs e) :
    (∀ d ∈ ws, d < 16) ∧ ∀ d ∈ fs, d < 16 := by
  obtain ⟨-, hwhole, hfraction, -⟩ := h
  exact ⟨(hexDigits_of_mapM hwhole).2.2, (hexDigits_of_mapM hfraction).2.2⟩

/-- The exponent is read first, and if it is out of range the digits do not count. -/
theorem IsHexFloat.floatValue (h : IsHexFloat w ws fs e) :
    Literal.floatValue w = if (maxInteger : Int) < e then .error .overflow
      else if e < -(maxInteger + 1 : Int) then .ok .zero
      else finite (Mantissa.ofDigits e ws fs).toDouble := by
  cases h with
  | @intro whole fraction sign ds ws fs n hw hwhole hfraction hne hsign hds hn =>
    obtain ⟨hcs, rfl, -⟩ := hexDigits_of_mapM hwhole
    obtain ⟨hcs', rfl, -⟩ := hexDigits_of_mapM hfraction
    have hf : ∀ cs ∈ fraction, ∀ c ∈ cs, isHexDigit c = true := by
      rintro cs hcs
      obtain rfl : fraction = some cs := hcs
      exact hcs'
    have hdigits := isDigit_of_number? hn
    have hmantissa : ¬ (whole = [] ∧ fraction.getD [] = []) := by
      rintro ⟨hwhole, hfraction⟩
      rw [hwhole, hfraction] at hne
      exact hne rfl
    rw [floatValue_prefixed hw, hexFloatValue_parts hcs hf hsign hdigits,
      digitsValue_of_number? hds hn]
    by_cases hminus : sign = some '-'
    · simp only [hminus, if_true]
      rw [if_neg (show ¬ (maxInteger : Int) < -n by omega)]
      by_cases hle : n ≤ maxInteger + 1
      · rw [if_pos hle, if_neg (show ¬ -(n : Int) < -(maxInteger + 1 : Int) by omega)]
        dsimp only
        rw [if_neg hmantissa]
      · rw [if_neg hle, if_pos (show -(n : Int) < -(maxInteger + 1 : Int) by omega)]
    · simp only [hminus, if_false]
      by_cases hle : n ≤ maxInteger
      · rw [if_pos hle, if_neg (show ¬ (maxInteger : Int) < n by omega),
          if_neg (show ¬ (n : Int) < -(maxInteger + 1 : Int) by omega)]
        dsimp only
        rw [if_neg hmantissa]
      · rw [if_neg hle, if_pos (show (maxInteger : Int) < n by omega)]

/-- A literal is read as a double that is beside its number, if its exponent is in range.  It is
the nearest one exactly if both steps in which digits are lost agree with the number on the side of
a midpoint.  Otherwise the exponent alone decides. -/
theorem IsHexFloat.faithful (h : IsHexFloat w ws fs e) :
    ((maxInteger : Int) < e → Literal.floatValue w = .error .overflow ∧
      (Rounded (hexNumber ws fs e) (Literal.floatValue w) ↔ Double.limit ≤ hexNumber ws fs e)) ∧
    (e < -(maxInteger + 1 : Int) → Literal.floatValue w = .ok .zero ∧
      (Rounded (hexNumber ws fs e) (Literal.floatValue w) ↔
        hexNumber ws fs e ≤ 2 ^ (-1075 : Int))) ∧
    (-(maxInteger + 1 : Int) ≤ e → e ≤ maxInteger →
      Faithful (hexNumber ws fs e) (Literal.floatValue w) ∧
      (Rounded (hexNumber ws fs e) (Literal.floatValue w) ↔
        Agrees (Mantissa.ofDigits e ws fs).value (hexNumber ws fs e) ∧
        Agrees (Mantissa.ofDigits e ws fs).rounded (hexNumber ws fs e))) := by
  have hvalue := h.floatValue
  have hnonneg := hexNumber_nonneg ws fs e
  refine ⟨fun he => ?_, fun he => ?_, fun hlow hhigh => ?_⟩
  · rw [if_pos he] at hvalue
    rw [hvalue]
    exact ⟨rfl, fun hrounded => by cases hrounded; assumption, .excess⟩
  · rw [if_neg (by omega), if_pos he] at hvalue
    rw [hvalue]
    exact ⟨rfl, rounded_zero hnonneg⟩
  · rw [if_neg (by omega), if_neg (by omega)] at hvalue
    rw [hvalue]
    obtain ⟨hws, hfs⟩ := h.digits_lt
    exact (Mantissa.isFront_ofDigits hws hfs e).finite_toDouble

theorem IsHexFloat.faithful_three : IsHexFloat "0X_1.8p+1" [1] [8] 1 ∧
    Faithful 3 (Literal.floatValue "0X_1.8p+1") ∧
    Literal.floatValue "0X_1.8p+1" = .ok ⟨0x4008000000000000⟩ := by
  have h : IsHexFloat "0X_1.8p+1" [1] [8] 1 :=
    @IsHexFloat.intro _ ['1'] (some ['8']) (some '+') ['1'] _ _ 1 (by decide) (by decide)
      (by decide) (by decide) (by rintro _ ⟨⟩; decide) (by decide) (by decide)
  have hnumber : hexNumber [1] [8] 1 = 3 := by
    norm_num [hexNumber, Nat.ofDigits]
  refine ⟨h, ?_, by decide⟩
  rw [← hnumber]
  exact (h.faithful.2.2 (by decide) (by decide)).1

/-- Of one with half the last bit of a double and a little more behind it, what is more is lost, so
that it is read as one. -/
theorem exists_not_rounded : ¬ ∀ w ws fs e, IsHexFloat w ws fs e →
    Rounded (hexNumber ws fs e) (floatValue w) := by
  intro h
  obtain ⟨fs, hfs⟩ : ∃ fs, fs = [0, 0, 0, 0, 0, 0, 0, 0, 0, 0, 0, 0, 0, 8, 0, 0, 0, 0, 0, 1] :=
    ⟨_, rfl⟩
  have hhex : IsHexFloat "0x1.00000000000008000001p0" [1] fs 0 := by
    rw [hfs]
    exact @IsHexFloat.intro _ ['1'] (some "00000000000008000001".toList) none ['0'] _ _ 0
      (by decide) (by decide) (by decide) (by decide) (by rintro _ ⟨⟩) (by decide) (by decide)
  have hnumber : hexNumber [1] fs 0 = 1 + 2 ^ (-53 : Int) + 2 ^ (-80 : Int) := by
    norm_num [hexNumber, hfs, Nat.ofDigits]
  have hvalue : floatValue "0x1.00000000000008000001p0" = .ok ⟨0x3FF0000000000000⟩ := by
    decide +kernel
  have hone : (Double.mk 0x3FF0000000000000).value = 1 := by
    norm_num [Double.value, show (Double.mk 0x3FF0000000000000).isNegative = false by decide,
      show (Double.mk 0x3FF0000000000000).significand = 2 ^ 52 by decide,
      show (Double.mk 0x3FF0000000000000).scale = -52 by decide]
  have hnext : (Double.mk 0x3FF0000000000001).value = 1 + 2 ^ (-52 : Int) := by
    norm_num [Double.value, show (Double.mk 0x3FF0000000000001).isNegative = false by decide,
      show (Double.mk 0x3FF0000000000001).significand = 2 ^ 52 + 1 by decide,
      show (Double.mk 0x3FF0000000000001).scale = -52 by decide]
  have hread := h _ _ _ _ hhex
  rw [hvalue, hnumber] at hread
  cases hread with
  | nearest _ hnearest =>
    have hle := hnearest.le (Double.mk 0x3FF0000000000001) (by decide)
    rw [hone, hnext] at hle
    norm_num [abs_le, abs_of_pos, abs_of_neg] at hle

end Literal
end FrontEnd
