import FrontEnd.Source

/-!
# A text read to its end

All that a source will ever say: its runes, and what is reported on arriving at each of
them.  Nothing that happens between reading the runes changes either, so what follows
works on a `Text` and leaves bytes and reads behind.
-/

namespace FrontEnd

structure Text where
  runes : List Char
  /-- Reports with the index of the rune, or of the end, on whose arrival they are
  made. -/
  reports : List (Nat × Diagnostic)
deriving DecidableEq, Repr

namespace Text

def fromRune (k : Nat) (s : Source) : Text :=
  let here := s.arrival.map (k, ·)
  match _h : s.rune with
  | none => ⟨[], here⟩
  | some c =>
    let t := fromRune (k + 1) s.advance
    ⟨c :: t.runes, here ++ t.reports⟩
termination_by s.pending
decreasing_by exact Source.pending_advance_lt _h

def ofReads (reads : List Read) : Text :=
  fromRune 0 (.ofReads reads)

end Text
end FrontEnd
