/-!
# Double-precision numbers

A `Double` is the sixty-four bits of an IEEE 754 binary64 number.  A finite one
denotes, up to its sign, `significand · 2 ^ scale`; both are read off the bits, so
every statement about numbers is one about naturals and integers.
-/

namespace FrontEnd

structure Double where
  bits : UInt64
deriving DecidableEq, Repr, Inhabited

namespace Double

/-- The bits of infinity, and of every number below it in magnitude. -/
def infinityBits : Nat := 2047 <<< 52

def ofParts (negative : Bool) (magnitude : Nat) : Double :=
  ⟨UInt64.ofNat (magnitude + if negative then 1 <<< 63 else 0)⟩

def zero : Double := ofParts false 0

def infinity : Double := ofParts false infinityBits

def nan : Double := ofParts false (infinityBits + (1 <<< 51))

def isNegative (x : Double) : Bool :=
  1 <<< 63 ≤ x.bits.toNat

/-- The bits below the sign.  They order the magnitudes of numbers. -/
def magnitude (x : Double) : Nat :=
  x.bits.toNat % (1 <<< 63)

def isNaN (x : Double) : Bool :=
  infinityBits < x.magnitude

def isInfinite (x : Double) : Bool :=
  x.magnitude = infinityBits

def isFinite (x : Double) : Bool :=
  x.magnitude < infinityBits

/-- The exponent field.  Zero marks the numbers too small for a leading bit. -/
def field (x : Double) : Nat :=
  x.magnitude >>> 52

def fraction (x : Double) : Nat :=
  x.magnitude % (1 <<< 52)

def significand (x : Double) : Nat :=
  if x.field = 0 then x.fraction else x.fraction + (1 <<< 52)

def scale (x : Double) : Int :=
  max x.field 1 - 1075

/-- Numeric equality: the two zeros are equal, and what is not a number equals
nothing. -/
def same (x y : Double) : Bool :=
  !x.isNaN && !y.isNaN && (x.bits = y.bits || (x.magnitude = 0 && y.magnitude = 0))

def withSign (negative : Bool) (x : Double) : Double :=
  ofParts negative x.magnitude

theorem magnitude_lt (x : Double) : x.magnitude < 1 <<< 63 :=
  Nat.mod_lt _ (by decide)

theorem magnitude_ofParts (negative : Bool) {m : Nat} (h : m < 1 <<< 63) :
    (ofParts negative m).magnitude = m := by
  simp only [magnitude, ofParts, UInt64.toNat_ofNat']
  cases negative <;> simp <;> omega

end Double
end FrontEnd
