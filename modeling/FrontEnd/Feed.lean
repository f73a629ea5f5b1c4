import FrontEnd.Utf8

/-!
# The bytes around the head

Input comes in reads of any size, of which only the bytes from the mark on are kept.
A `Window` holds them by index: what it drops from its front moves every index back,
and `base` counts what has been dropped.  A `Feed` is a window over the reads to come;
`Feed.fill` reads just as far as it takes to see the whole of the next character.
-/

namespace FrontEnd

/-- What one attempt to read brings.  No bytes at all mean that the input has ended. -/
inductive Read where
  | bytes (chunk : ByteArray)
  /-- Nothing, but it may be tried again. -/
  | interrupted
  | failed (reason : String)

namespace Read

def size : Read → Nat
  | bytes chunk => chunk.size
  | _ => 0

def total : List Read → Nat
  | [] => 0
  | r :: rs => r.size + total rs

end Read

/-- The bytes from the mark, or from the head if nothing is marked, to the last one
read. -/
structure Window where
  bytes : ByteArray
  /-- How many bytes have been dropped from the front. -/
  base : Nat
  head : Nat
  mark : Option Nat

namespace Window

def empty : Window := ⟨.empty, 0, 0, none⟩

def ahead (w : Window) : Nat :=
  w.bytes.size - w.head

def offset (w : Window) : Nat :=
  w.base + w.head

def piece (w : Window) : Option Utf8.Piece :=
  Utf8.Piece.at? w.bytes w.head

def trim (w : Window) : Window :=
  let keep := min (w.mark.getD w.head) w.head
  ⟨w.bytes.extract keep w.bytes.size, w.base + keep, w.head - keep, w.mark.map (· - keep)⟩

def append (w : Window) (chunk : ByteArray) : Window :=
  { w with bytes := w.bytes ++ chunk }

def step (w : Window) (n : Nat) : Window :=
  { w with head := w.head + n }

def setMark (w : Window) : Window :=
  { w with mark := some w.head }

def segment (w : Window) : List Char :=
  Utf8.lossy (w.bytes.extract (w.mark.getD w.head) w.head) 0

theorem ahead_trim (w : Window) : w.trim.ahead = w.ahead := by
  simp only [trim, ahead, ByteArray.size_extract]
  omega

theorem ahead_append_le (w : Window) (chunk : ByteArray) :
    (w.append chunk).ahead ≤ w.ahead + chunk.size := by
  simp only [append, ahead, ByteArray.size_append]
  omega

theorem ahead_step_lt {w : Window} {p : Utf8.Piece} (h : w.piece = some p) :
    (w.step p.width).ahead < w.ahead := by
  have hb : w.head < w.bytes.size := by
    rw [← Utf8.Piece.at?_isSome_iff]
    exact Option.isSome_of_eq_some h
  have hp := p.width_pos
  simp only [step, ahead]
  omega

end Window

/-- A window over the reads to come.  Once the input has ended nothing more is read. -/
structure Feed where
  window : Window
  reads : List Read
  ended : Bool

namespace Feed

def ofReads (reads : List Read) : Feed :=
  ⟨.empty, reads, false⟩

/-- No character takes more bytes than this. -/
def lookahead : Nat := 4

/-- Takes reads until the longest character would be seen whole or the input ends, and
gives the reason if it ends by a failing read. -/
def fillFrom (w : Window) : List Read → Feed × Option String
  | [] => if lookahead ≤ w.ahead then (⟨w, [], false⟩, none) else (⟨w.trim, [], true⟩, none)
  | r :: rs =>
    if lookahead ≤ w.ahead then (⟨w, r :: rs, false⟩, none)
    else
      match r with
      | .interrupted => fillFrom w.trim rs
      | .failed reason => (⟨w.trim, rs, true⟩, some reason)
      | .bytes chunk =>
        if chunk.size = 0 then (⟨w.trim, rs, true⟩, none)
        else fillFrom (w.trim.append chunk) rs

def fill (f : Feed) : Feed × Option String :=
  if f.ended then (f, none) else fillFrom f.window f.reads

def pending (f : Feed) : Nat :=
  f.window.ahead + Read.total f.reads

theorem pending_fillFrom_le (w : Window) (rs : List Read) :
    (fillFrom w rs).1.pending ≤ w.ahead + Read.total rs := by
  induction rs generalizing w with
  | nil =>
    unfold fillFrom
    split <;> simp [pending, Read.total, Window.ahead_trim]
  | cons r rs ih =>
    unfold fillFrom
    split
    · simp [pending]
    · cases r with
      | interrupted =>
        have := ih w.trim
        simp only [Window.ahead_trim] at this
        simp only [Read.total]
        omega
      | failed reason => simp [pending, Read.total, Window.ahead_trim, Read.size]
      | bytes chunk =>
        dsimp only
        split
        · simp only [pending, Window.ahead_trim, Read.total]
          omega
        · have h₁ := ih (w.trim.append chunk)
          have h₂ := w.trim.ahead_append_le chunk
          simp only [Window.ahead_trim] at h₂
          simp only [Read.total, Read.size]
          omega

theorem pending_fill_le (f : Feed) : f.fill.1.pending ≤ f.pending := by
  unfold fill
  split
  · exact Nat.le_refl _
  · exact pending_fillFrom_le _ _

end Feed
end FrontEnd
