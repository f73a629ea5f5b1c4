import FrontEnd.Literal.Float
import FrontEnd.Proofs.Double.Scaling
import FrontEnd.Proofs.Literal.Digits

/-!
# The mantissa that is kept

Of the digits of a hexadecimal mantissa those in front are kept, up to sixty-four bits.  What is
kept is the number that the digits write, less the digits behind, and it is long enough for no
double to lie between the two.
-/

namespace FrontEnd
namespace Literal
namespace Mantissa

variable {m : Mantissa} {p d : Nat} {e : Int} {ds : List Nat}

def value (m : Mantissa) : ℚ :=
  m.bits * 2 ^ m.scale

/-- Of the number `p · 2 ^ e` the mantissa has lost the last `d` digits, which write `low`.  None
is lost before there are sixty bits. -/
structure Keeps (m : Mantissa) (p : Nat) (e : Int) (d low : Nat) : Prop where
  eq : p = m.bits * 16 ^ d + low
  low_lt : low < 16 ^ d
  scale : m.scale = e + 4 * d
  full : d ≠ 0 → 2 ^ 60 ≤ m.bits
  bits_lt : m.bits < 2 ^ 64

/-- The mantissa is the front of the number `p · 2 ^ e`. -/
def IsFront (m : Mantissa) (p : Nat) (e : Int) : Prop :=
  ∃ d low, m.Keeps p e d low

theorem hasRoom_iff : m.hasRoom = true ↔ m.bits < 2 ^ 60 :=
  decide_eq_true_iff

/-- A digit is kept by `take` if there is room for it and dropped otherwise.  With each digit the
unit of the number goes down by `step` bits. -/
structure Takes (take : Mantissa → Nat → Mantissa) (step : Int) : Prop where
  room : ∀ m d, m.hasRoom = true → take m d = ⟨m.bits * 16 + d, m.scale - step⟩
  full : ∀ m d, m.hasRoom = false → take m d = ⟨m.bits, m.scale + 4 - step⟩

theorem takes_whole : Takes takeWhole 0 := by
  refine ⟨fun m d hm => ?_, fun m d hm => ?_⟩
  · rw [takeWhole, if_pos hm, sub_zero]
  · rw [takeWhole, hm, if_neg Bool.false_ne_true, sub_zero]

theorem takes_fraction : Takes takeFraction 4 := by
  refine ⟨fun m d hm => ?_, fun m d hm => ?_⟩
  · rw [takeFraction, if_pos hm]
  · rw [takeFraction, hm, if_neg Bool.false_ne_true, add_sub_cancel_right]

/-- Of some digits those that are dropped when `take` takes them in one after the other. -/
def lost (take : Mantissa → Nat → Mantissa) : Mantissa → List Nat → List Nat
  | _, [] => []
  | m, d :: ds => if m.hasRoom then lost take (take m d) ds else d :: lost take (take m d) ds

/-- The digits that are dropped of `ws` before the point and `fs` behind it. -/
def dropped (e : Int) (ws fs : List Nat) : List Nat :=
  lost takeWhole ⟨0, e⟩ ws ++ lost takeFraction (ws.foldl takeWhole ⟨0, e⟩) fs

/-- Of the number `p · 2 ^ e` the mantissa has lost the digits `ls` behind. -/
def Loses (m : Mantissa) (p : Nat) (e : Int) (ls : List Nat) : Prop :=
  m.Keeps p e ls.length (Nat.ofDigits 16 ls.reverse)

variable {k low : Nat} {ls : List Nat} {step : Int} {take : Mantissa → Nat → Mantissa}

theorem Keeps.keep (h : m.Keeps p e k low) (hm : m.hasRoom = true) (hd : d < 16) (step : Int) :
    k = 0 ∧ Keeps ⟨m.bits * 16 + d, m.scale - step⟩ (p * 16 + d) (e - step) 0 0 := by
  obtain ⟨heq, hlow, hscale, hlost, hbits⟩ := h
  rw [hasRoom_iff] at hm
  obtain rfl : k = 0 := by
    by_contra hk
    have := hlost hk
    omega
  simp only [pow_zero, mul_one, Nat.lt_one_iff, Nat.cast_zero, mul_zero, add_zero]
    at heq hlow hscale
  refine ⟨rfl, ?_, by simp, ?_, fun h => absurd rfl h, ?_⟩
  · simp only [pow_zero]
    omega
  · simp only [Nat.cast_zero]
    omega
  · show m.bits * 16 + d < 2 ^ 64
    omega

theorem Keeps.drop (h : m.Keeps p e k low) (hm : m.hasRoom = false) (hd : d < 16) (step : Int) :
    Keeps ⟨m.bits, m.scale + 4 - step⟩ (p * 16 + d) (e - step) (k + 1) (low * 16 + d) := by
  obtain ⟨heq, hlow, hscale, -, hbits⟩ := h
  rw [← Bool.not_eq_true, hasRoom_iff] at hm
  refine ⟨?_, ?_, ?_, fun _ => Nat.le_of_not_lt hm, hbits⟩
  · rw [heq, pow_succ]
    ring
  · rw [pow_succ]
    omega
  · simp only [hscale]
    push_cast
    ring

/-- What a run of digits loses is lost behind what had been lost before. -/
theorem Takes.loses (ht : Takes take step) (h : m.Loses p e ls) (hds : ∀ d ∈ ds, d < 16) :
    (ds.foldl take m).Loses (Base.hexadecimal.extend p ds) (e - step * ds.length)
      (ls ++ lost take m ds) := by
  induction ds generalizing m p e ls with
  | nil =>
    rw [Base.extend_nil, lost, List.append_nil]
    simpa using h
  | cons d ds ih =>
    obtain ⟨hd, hds⟩ := List.forall_mem_cons.1 hds
    rw [Base.extend_cons, show e - step * ((d :: ds).length : Int) = e - step - step * ds.length by
      rw [List.length_cons]
      push_cast
      ring, List.foldl_cons, lost]
    cases hm : m.hasRoom with
    | true =>
      obtain ⟨hnone, hkeep⟩ := Keeps.keep h hm hd step
      obtain rfl := List.length_eq_zero_iff.1 hnone
      rw [← ht.room m d hm] at hkeep
      exact ih hkeep hds
    | false =>
      have hdrop := Keeps.drop h hm hd step
      rw [← ht.full m d hm] at hdrop
      have hdigit : Nat.ofDigits 16 (ls ++ [d]).reverse = Nat.ofDigits 16 ls.reverse * 16 + d := by
        rw [List.reverse_append, List.reverse_singleton, List.singleton_append, Nat.ofDigits_cons]
        ring
      have hloses : (take m d).Loses (p * 16 + d) (e - step) (ls ++ [d]) := by
        rw [Loses, hdigit, List.length_append, List.length_singleton]
        exact hdrop
      have hrest := ih hloses hds
      rw [List.append_assoc, List.singleton_append] at hrest
      exact hrest

/-- The mantissa of some digits is the number that they write, less those that are dropped. -/
theorem loses_ofDigits {ws fs : List Nat} (hws : ∀ d ∈ ws, d < 16) (hfs : ∀ d ∈ fs, d < 16)
    (e : Int) : (ofDigits e ws fs).Loses (Nat.ofDigits 16 (ws ++ fs).reverse) (e - 4 * fs.length)
      (dropped e ws fs) := by
  have hstart : Loses ⟨0, e⟩ 0 e [] :=
    ⟨by simp, by simp, by simp, fun h => absurd rfl h, by simp⟩
  have hnumber : Nat.ofDigits 16 (ws ++ fs).reverse =
      Base.hexadecimal.extend (Base.hexadecimal.extend 0 ws) fs := by
    rw [← Base.extend_append, Base.extend_zero]
    rfl
  have hwhole := takes_whole.loses hstart hws
  rw [zero_mul, sub_zero] at hwhole
  rw [hnumber]
  exact takes_fraction.loses hwhole hfs

theorem isFront_ofDigits {ws fs : List Nat} (hws : ∀ d ∈ ws, d < 16) (hfs : ∀ d ∈ fs, d < 16)
    (e : Int) : (ofDigits e ws fs).IsFront (Nat.ofDigits 16 (ws ++ fs).reverse)
      (e - 4 * fs.length) :=
  ⟨_, _, loses_ofDigits hws hfs e⟩

namespace Keeps

theorem two_zpow_scale (h : m.Keeps p e d low) : (2 : ℚ) ^ m.scale = 16 ^ d * 2 ^ e := by
  rw [h.scale, zpow_add₀ two_ne_zero, zpow_mul, zpow_natCast, mul_comm]
  norm_num

theorem value_eq (h : m.Keeps p e d low) : (p : ℚ) * 2 ^ e = m.value + low * 2 ^ e := by
  rw [value, h.two_zpow_scale, h.eq]
  push_cast
  ring

theorem lost_lt (h : m.Keeps p e d low) : (low : ℚ) * 2 ^ e < 2 ^ m.scale := by
  have hlow : (low : ℚ) < 16 ^ d := by exact_mod_cast h.low_lt
  rw [h.two_zpow_scale]
  exact mul_lt_mul_of_pos_right hlow (by positivity)

theorem lt_next (h : m.Keeps p e d low) : (p : ℚ) * 2 ^ e < (m.bits + 1) * 2 ^ m.scale := by
  have hlost := h.lost_lt
  rw [h.value_eq, value]
  linarith

end Keeps

theorem ofDigits_eq_zero_iff : Nat.ofDigits 16 ls = 0 ↔ ∀ d ∈ ls, d = 0 := by
  constructor
  · exact Nat.digits_zero_of_eq_zero (by decide)
  · intro h
    rw [List.eq_replicate_of_mem h, Nat.ofDigits_replicate_zero]

theorem Loses.value_eq_iff (h : m.Loses p e ls) : m.value = p * 2 ^ e ↔ ∀ d ∈ ls, d = 0 := by
  have hunit : (2 : ℚ) ^ e ≠ 0 := by positivity
  rw [Keeps.value_eq h, left_eq_add, mul_eq_zero_iff_right hunit, Nat.cast_eq_zero,
    ofDigits_eq_zero_iff]
  simp only [List.mem_reverse]

namespace IsFront

theorem value_le (h : m.IsFront p e) : m.value ≤ p * 2 ^ e := by
  obtain ⟨d, low, h⟩ := h
  rw [h.value_eq]
  exact le_add_of_nonneg_right (by positivity)

theorem le_value {q : ℚ} (h : m.IsFront p e) (hq : Double.IsShort q) (hle : q ≤ p * 2 ^ e) :
    q ≤ m.value := by
  obtain ⟨d, low, h⟩ := h
  rw [h.value_eq] at hle
  rcases Nat.eq_zero_or_pos d with rfl | hd
  · obtain rfl : low = 0 := Nat.lt_one_iff.1 h.low_lt
    simpa using hle
  · by_contra hlt
    rw [not_le] at hlt
    have hpos : (0 : ℚ) < 2 ^ m.scale := by positivity
    have hbits : (2 : ℚ) ^ (54 : Int) ≤ m.bits := by
      have hfull := h.full hd.ne'
      exact_mod_cast Nat.le_trans (by decide) hfull
    have hlarge : (2 : ℚ) ^ (54 + m.scale) ≤ q := by
      rw [zpow_add₀ two_ne_zero]
      exact (mul_le_mul_of_nonneg_right hbits hpos.le).trans hlt.le
    -- In units of the last bit that is kept `q` would be between two consecutive integers.
    obtain ⟨j, rfl⟩ := hq.exists_multiple (Or.inr hlarge)
    have hj : m.bits < j := by exact_mod_cast lt_of_mul_lt_mul_right hlt hpos.le
    have hj' : ((m.bits : ℚ) + 1) ≤ j := by exact_mod_cast hj
    have hstep := mul_le_mul_of_nonneg_right hj' hpos.le
    have hlost := h.lost_lt
    rw [value] at hle
    linarith

/-- No double and no midpoint of two is between the number and what is kept of it. -/
theorem follows (h : m.IsFront p e) : Double.Follows m.value (p * 2 ^ e) :=
  fun _ hq => ⟨h.le_value hq, fun hge => h.value_le.trans hge⟩

end IsFront
end Mantissa
end Literal
end FrontEnd
