/-!
# UTF-8

The two ways malformed bytes are read.  Rune by rune, each byte that begins no
well-formed sequence counts for itself.  In a text cut out as a whole, the longest run
of bytes that could have begun a sequence counts once.
-/

namespace FrontEnd
namespace Utf8

def replacement : Char := '\uFFFD'

/-- What a text falls into: characters, and bytes that begin none. -/
inductive Piece where
  | scalar (c : Char)
  | malformed
deriving DecidableEq, Repr

namespace Piece

def at? (bytes : ByteArray) (i : Nat) : Option Piece :=
  if i < bytes.size then some ((bytes.utf8DecodeChar? i).elim malformed scalar) else none

def rune : Piece → Char
  | scalar c => c
  | malformed => replacement

def width : Piece → Nat
  | scalar c => c.utf8Size
  | malformed => 1

theorem width_pos (p : Piece) : 0 < p.width := by
  cases p with
  | scalar c => exact c.utf8Size_pos
  | malformed => exact Nat.one_pos

theorem at?_isSome_iff {bytes : ByteArray} {i : Nat} : (at? bytes i).isSome ↔ i < bytes.size := by
  unfold at?
  split <;> simp [*]

end Piece

def isTail (b : UInt8) : Bool :=
  0x80 ≤ b && b ≤ 0xBF

/-- Whether `b` may be the second of three or four bytes after `lead`.  The bounds leave
out the longer forms of shorter sequences, surrogates, and what is past the last code
point. -/
def isSecond (lead b : UInt8) : Bool :=
  if lead = 0xE0 then 0xA0 ≤ b && b ≤ 0xBF
  else if lead = 0xED then 0x80 ≤ b && b ≤ 0x9F
  else if lead = 0xF0 then 0x90 ≤ b && b ≤ 0xBF
  else if lead = 0xF4 then 0x80 ≤ b && b ≤ 0x8F
  else 0xE1 ≤ lead && lead ≤ 0xF3 && isTail b

/-- How many bytes at index `i`, where no character begins, could have begun one. -/
def brokenWidth (bytes : ByteArray) (i : Nat) : Nat :=
  match bytes[i]?, bytes[i + 1]?, bytes[i + 2]? with
  | some a, some b, c =>
    if isSecond a b then if 0xF0 ≤ a && c.any isTail then 3 else 2 else 1
  | _, _, _ => 1

theorem brokenWidth_pos (bytes : ByteArray) (i : Nat) : 0 < brokenWidth bytes i := by
  unfold brokenWidth
  split
  · split
    · split <;> decide
    · decide
  · decide

/-- The text from index `i` on, with one replacement for each broken sequence. -/
def lossy (bytes : ByteArray) (i : Nat) : List Char :=
  if i < bytes.size then
    match bytes.utf8DecodeChar? i with
    | some c => c :: lossy bytes (i + c.utf8Size)
    | none => replacement :: lossy bytes (i + brokenWidth bytes i)
  else []
termination_by bytes.size - i
decreasing_by
  · have := c.utf8Size_pos
    omega
  · have := brokenWidth_pos bytes i
    omega

end Utf8
end FrontEnd
