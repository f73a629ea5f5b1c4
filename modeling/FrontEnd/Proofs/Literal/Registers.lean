import FrontEnd.Proofs.Literal.HexFloat

/-!
# The mantissa in machine words

The digits of a mantissa are collected in sixty-four bits and the scale is a signed word of that
size, which stays at its bounds when a sum is past them.  As long as the scale stays within them
the words hold the mantissa exactly, and the mantissa brackets the number that the digits write:
the number is less than one unit above it, and equal to it exactly if all digits that were dropped
are zero.
-/

namespace FrontEnd
namespace Literal

structure Registers where
  bits : UInt64
  scale : Int64
deriving DecidableEq, Repr

namespace Mantissa

theorem scale_takeWhole_le (m : Mantissa) (d : Nat) : (m.takeWhole d).scale ≤ m.scale + 4 := by
  unfold takeWhole
  split <;> simp

theorem le_scale_takeFraction (m : Mantissa) (d : Nat) :
    m.scale - 4 ≤ (m.takeFraction d).scale := by
  unfold takeFraction
  split <;> simp

/-- The number `v` is in the last unit of the mantissa, behind which the digits `dropped` were. -/
structure Brackets (m : Mantissa) (v : ℚ) (dropped : List Nat) : Prop where
  bits_lt : m.bits < 2 ^ 64
  le : m.bits * 2 ^ m.scale ≤ v
  lt : v < (m.bits + 1) * 2 ^ m.scale
  eq_iff : m.bits * 2 ^ m.scale = v ↔ ∀ d ∈ dropped, d = 0
  full : dropped ≠ [] → 2 ^ 60 ≤ m.bits

end Mantissa

namespace Registers

def hasRoom (r : Registers) : Bool :=
  r.bits >>> 60 = 0

/-- The bits with those of a digit behind them.  What is shifted out in front is lost. -/
def shiftIn (r : Registers) (d : Nat) : UInt64 :=
  r.bits <<< 4 ||| UInt64.ofNat d

/-- The scale moved by `n`, or the bound that it would pass. -/
def moved (r : Registers) (n : Int) : Int64 :=
  .ofIntClamp (r.scale.toInt + n)

def takeWhole (r : Registers) (d : Nat) : Registers :=
  if r.hasRoom then ⟨r.shiftIn d, r.scale⟩ else ⟨r.bits, r.moved 4⟩

def takeFraction (r : Registers) (d : Nat) : Registers :=
  if r.hasRoom then ⟨r.shiftIn d, r.moved (-4)⟩ else r

def ofDigits (e : Int64) (whole fraction : List Nat) : Registers :=
  fraction.foldl takeFraction (whole.foldl takeWhole ⟨0, e⟩)

structure Holds (r : Registers) (m : Mantissa) : Prop where
  bits : r.bits.toNat = m.bits
  scale : r.scale.toInt = m.scale

variable {r : Registers} {m : Mantissa} {d : Nat} {ds : List Nat}

theorem moved_toInt {n : Int} (hlow : Int64.minValue.toInt ≤ r.scale.toInt + n)
    (hhigh : r.scale.toInt + n ≤ Int64.maxValue.toInt) : (r.moved n).toInt = r.scale.toInt + n :=
  Int64.toInt_ofIntClamp hlow hhigh

theorem shiftIn_toNat (hr : r.bits.toNat < 2 ^ 60) (hd : d < 16) :
    (r.shiftIn d).toNat = r.bits.toNat * 16 + d := by
  have hshift : r.bits.toNat <<< 4 < 2 ^ 64 := by
    rw [Nat.shiftLeft_eq]
    omega
  have hdigit : d < 2 ^ 64 := by omega
  rw [shiftIn, UInt64.toNat_or, UInt64.toNat_shiftLeft, UInt64.toNat_ofNat',
    Nat.mod_eq_of_lt hdigit, show (4 : UInt64).toNat % 64 = 4 by decide, Nat.mod_eq_of_lt hshift,
    ← Nat.shiftLeft_add_eq_or_of_lt (show d < 2 ^ 4 by omega), Nat.shiftLeft_eq]

theorem hasRoom_iff : r.hasRoom = true ↔ r.bits.toNat < 2 ^ 60 := by
  rw [hasRoom, decide_eq_true_eq, ← UInt64.toNat_inj, UInt64.toNat_shiftRight,
    show (60 : UInt64).toNat % 64 = 60 by decide, Nat.shiftRight_eq_div_pow]
  show r.bits.toNat / 2 ^ 60 = 0 ↔ _
  omega

namespace Holds

theorem hasRoom (h : r.Holds m) : r.hasRoom = m.hasRoom := by
  rw [Bool.eq_iff_iff, Registers.hasRoom_iff, Mantissa.hasRoom_iff, h.bits]

theorem takeWhole (h : r.Holds m) (hd : d < 16) (hhigh : m.scale + 4 ≤ Int64.maxValue.toInt) :
    (r.takeWhole d).Holds (m.takeWhole d) := by
  have hroom := h.hasRoom
  obtain ⟨hbits, hscale⟩ := h
  unfold Registers.takeWhole Mantissa.takeWhole
  rw [hroom]
  split
  · next hm =>
    rw [← hroom, Registers.hasRoom_iff] at hm
    refine ⟨?_, hscale⟩
    rw [shiftIn_toNat hm hd, hbits]
  · have hlow := r.scale.minValue_le_toInt
    refine ⟨hbits, ?_⟩
    rw [moved_toInt (by omega) (by omega), hscale]

theorem takeFraction (h : r.Holds m) (hd : d < 16) (hlow : Int64.minValue.toInt ≤ m.scale - 4) :
    (r.takeFraction d).Holds (m.takeFraction d) := by
  have hroom := h.hasRoom
  obtain ⟨hbits, hscale⟩ := h
  unfold Registers.takeFraction Mantissa.takeFraction
  rw [hroom]
  split
  · next hm =>
    rw [← hroom, Registers.hasRoom_iff] at hm
    have hhigh := r.scale.toInt_le
    refine ⟨?_, ?_⟩
    · rw [shiftIn_toNat hm hd, hbits]
    · rw [moved_toInt (by omega) (by omega), hscale]
      rfl
  · exact ⟨hbits, hscale⟩

theorem wholes (h : r.Holds m) (hds : ∀ d ∈ ds, d < 16)
    (hhigh : m.scale + 4 * ds.length ≤ Int64.maxValue.toInt) :
    (ds.foldl Registers.takeWhole r).Holds (ds.foldl Mantissa.takeWhole m) := by
  induction ds generalizing r m with
  | nil => exact h
  | cons d ds ih =>
    obtain ⟨hd, hds⟩ := List.forall_mem_cons.1 hds
    have hstep := m.scale_takeWhole_le d
    rw [List.length_cons] at hhigh
    exact ih (h.takeWhole hd (by omega)) hds (by omega)

theorem fractions (h : r.Holds m) (hds : ∀ d ∈ ds, d < 16)
    (hlow : Int64.minValue.toInt ≤ m.scale - 4 * ds.length) :
    (ds.foldl Registers.takeFraction r).Holds (ds.foldl Mantissa.takeFraction m) := by
  induction ds generalizing r m with
  | nil => exact h
  | cons d ds ih =>
    obtain ⟨hd, hds⟩ := List.forall_mem_cons.1 hds
    have hstep := m.le_scale_takeFraction d
    rw [List.length_cons] at hlow
    exact ih (h.takeFraction hd (by omega)) hds (by omega)

end Holds

variable {ws fs : List Nat}

/-- The loop over words gives the mantissa, if no sum can be past a bound. -/
theorem holds_ofDigits (e : Int64) (hws : ∀ d ∈ ws, d < 16) (hfs : ∀ d ∈ fs, d < 16)
    (hlow : Int64.minValue.toInt ≤ e.toInt - 4 * fs.length)
    (hhigh : e.toInt + 4 * ws.length ≤ Int64.maxValue.toInt) :
    (ofDigits e ws fs).Holds (Mantissa.ofDigits e.toInt ws fs) := by
  have hstart : Holds ⟨0, e⟩ ⟨0, e.toInt⟩ := ⟨rfl, rfl⟩
  have hscale := (Mantissa.loses_ofDigits hws (List.forall_mem_nil _) e.toInt).scale
  have hwhole := hstart.wholes hws hhigh
  refine hwhole.fractions hfs ?_
  show _ ≤ (Mantissa.ofDigits e.toInt ws []).scale - _
  simp only [List.length_nil] at hscale
  omega

/-- After any of its digits the words hold the mantissa, so no shift has lost a bit.  The number
that all of them write is in the last unit of what is kept. -/
theorem brackets (e : Int64) (hws : ∀ d ∈ ws, d < 16) (hfs : ∀ d ∈ fs, d < 16)
    (hlow : Int64.minValue.toInt ≤ e.toInt - 4 * fs.length)
    (hhigh : e.toInt + 4 * ws.length ≤ Int64.maxValue.toInt) :
    (∀ us vs, us <+: ws → vs <+: fs →
      (ofDigits e us vs).Holds (Mantissa.ofDigits e.toInt us vs)) ∧
    (Mantissa.ofDigits e.toInt ws fs).Brackets (hexNumber ws fs e.toInt)
      (Mantissa.dropped e.toInt ws fs) := by
  have hloses := Mantissa.loses_ofDigits hws hfs e.toInt
  have hfront : (Mantissa.ofDigits e.toInt ws fs).IsFront _ _ := ⟨_, _, hloses⟩
  constructor
  · intro us vs hus hvs
    have hus' := hus.length_le
    have hvs' := hvs.length_le
    exact holds_ofDigits e (fun d hd => hws d (hus.subset hd)) (fun d hd => hfs d (hvs.subset hd))
      (by omega) (by omega)
  · refine ⟨hloses.bits_lt, hfront.value_le, hloses.lt_next, hloses.value_eq_iff, fun hne => ?_⟩
    refine hloses.full ?_
    rwa [Ne, List.length_eq_zero_iff]

/-- Of one with half the last bit of a double and a little more behind it five digits are dropped,
and one of them is not zero. -/
theorem brackets_half :
    ∃ fs, Mantissa.dropped 0 [1] fs = [0, 0, 0, 0, 1] ∧
      2 ^ 60 ≤ (Mantissa.ofDigits 0 [1] fs).bits ∧
      (Mantissa.ofDigits 0 [1] fs).bits * 2 ^ (Mantissa.ofDigits 0 [1] fs).scale ≠
        hexNumber [1] fs 0 := by
  obtain ⟨fs, hfs⟩ : ∃ fs, fs = [0, 0, 0, 0, 0, 0, 0, 0, 0, 0, 0, 0, 0, 8, 0, 0, 0, 0, 0, 1] :=
    ⟨_, rfl⟩
  have hdropped : Mantissa.dropped 0 [1] fs = [0, 0, 0, 0, 1] := by
    rw [hfs]
    decide
  have hones : ∀ d ∈ [1], d < 16 := by decide
  have hdigits : ∀ d ∈ fs, d < 16 := by
    rw [hfs]
    decide
  have hlow : Int64.minValue.toInt ≤ (0 : Int64).toInt - 4 * fs.length := by
    rw [hfs]
    decide
  obtain ⟨-, hbrackets⟩ := brackets 0 hones hdigits hlow (by decide)
  rw [show (0 : Int64).toInt = 0 by decide, hdropped] at hbrackets
  refine ⟨fs, hdropped, hbrackets.full (by decide), fun heq => ?_⟩
  exact absurd (hbrackets.eq_iff.1 heq 1 (by decide)) (by decide)

end Registers
end Literal
end FrontEnd
