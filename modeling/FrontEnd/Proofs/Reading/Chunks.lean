import FrontEnd.Grammar.Declaration
import FrontEnd.Proofs.Reading.Checked

/-!
# Where the bytes are cut

Nothing that a user of a source can see depends on the sizes of the reads.
`Source.perform` runs any sequence of operations and keeps what is seen;
`Delivers.agree` says that two sequences of reads of the same bytes show the same, with
the same reports in the same order, and that nothing is out of range on the way.
-/

namespace FrontEnd

inductive Operation where
  | advance
  | mark
  | segment
  | rune
  | pos
deriving DecidableEq

inductive Observation where
  | done
  | segment (text : String)
  | rune (c : Option Char)
  | pos (p : Position)
deriving DecidableEq, Repr

namespace Source

def operate (s : Source) : Operation → Observation × Source
  | .advance => (.done, s.advance)
  | .mark => (.done, s.mark)
  | .segment => (.segment s.segment, s)
  | .rune => (.rune s.rune, s)
  | .pos => (.pos s.pos, s)

/-- What a sequence of operations shows, and all that is reported until its end. -/
def perform (s : Source) : List Operation → List Observation × Array Diagnostic
  | [] => ([], s.log)
  | o :: os =>
    let (seen, t) := s.operate o
    let (rest, log) := t.perform os
    (seen :: rest, log)

/-- An operation with every index checked. -/
def operate? (s : Source) : Operation → Option (Observation × Source)
  | .advance => do return (.done, ← s.advance?)
  | .mark => some (.done, s.mark)
  | .segment => do return (.segment (← s.segment?), s)
  | .rune => some (.rune s.rune, s)
  | .pos => some (.pos s.pos, s)

def perform? (s : Source) : List Operation → Option (List Observation × Array Diagnostic)
  | [] => some ([], s.log)
  | o :: os => do
    let (seen, t) ← s.operate? o
    let (rest, log) ← t.perform? os
    return (seen :: rest, log)

variable {bytes : ByteArray} {s : Source}

theorem operate?_eq (h : s.InRange) (o : Operation) :
    s.operate? o = some (s.operate o) ∧ (s.operate o).2.InRange := by
  cases o with
  | advance =>
    obtain ⟨ha, hr⟩ := advance?_eq h
    refine ⟨?_, hr⟩
    unfold operate?
    rw [ha]
    rfl
  | mark => exact ⟨rfl, Window.InRange.setMark h⟩
  | segment =>
    refine ⟨?_, h⟩
    unfold operate?
    rw [segment?_eq h]
    rfl
  | rune => exact ⟨rfl, h⟩
  | pos => exact ⟨rfl, h⟩

theorem perform_cons (s : Source) (o : Operation) (os : List Operation) :
    s.perform (o :: os) =
      ((s.operate o).1 :: ((s.operate o).2.perform os).1, ((s.operate o).2.perform os).2) := rfl

theorem perform?_eq (h : s.InRange) (os : List Operation) :
    s.perform? os = some (s.perform os) := by
  induction os generalizing s with
  | nil => rfl
  | cons o os ih =>
    obtain ⟨ho, hr⟩ := operate?_eq h o
    unfold perform?
    rw [ho, Option.bind_eq_bind, Option.bind_some]
    dsimp only
    rw [ih hr]
    rfl

/-- One operation shows the same on the whole input, and leaves the same behind. -/
theorem Over.operate (h : s.Over bytes) (o : Operation) :
    (s.operate o).2.Over bytes ∧
      (s.whole bytes).operate o = ((s.operate o).1, (s.operate o).2.whole bytes) := by
  cases o with
  | advance => exact ⟨h.advance, congrArg (Prod.mk _) h.whole_advance.symm⟩
  | mark => exact ⟨h.mark, rfl⟩
  | segment =>
    refine ⟨h, ?_⟩
    show (Observation.segment (s.whole bytes).segment, s.whole bytes) = _
    rw [h.segment_whole]
    rfl
  | rune =>
    refine ⟨h, ?_⟩
    show (Observation.rune (s.whole bytes).rune, s.whole bytes) = _
    rw [h.rune_whole]
    rfl
  | pos => exact ⟨h, rfl⟩

theorem Over.perform (h : s.Over bytes) (os : List Operation) :
    (s.whole bytes).perform os = s.perform os := by
  induction os generalizing s with
  | nil => rfl
  | cons o os ih =>
    obtain ⟨ho, hw⟩ := h.operate o
    rw [perform_cons, perform_cons, hw, ih ho]

end Source

/-- Reads of the same bytes cannot be told apart. -/
theorem Delivers.agree {reads reads' : List Read} {bytes : ByteArray}
    (h : Delivers reads bytes) (h' : Delivers reads' bytes) :
    (∀ os, (Source.ofReads reads).perform os = (Source.ofReads reads').perform os) ∧
    (∀ os, ((Source.ofReads? reads).bind (·.perform? os)) =
      some ((Source.ofReads reads).perform os)) ∧
    Tokens.ofText (.ofReads reads) = Tokens.ofText (.ofReads reads') ∧
    ∀ path, File.ofReads path reads = File.ofReads path reads' := by
  obtain ⟨ho, hw⟩ := Source.ofReads_over h
  obtain ⟨ho', hw'⟩ := Source.ofReads_over h'
  have htext : Text.ofReads reads = Text.ofReads reads' := by
    rw [Text.ofReads_eq h, Text.ofReads_eq h']
  obtain ⟨hc, hr⟩ := Source.ofReads?_eq reads
  refine ⟨fun os => ?_, fun os => ?_, by rw [htext], fun path => ?_⟩
  · rw [← ho.perform os, ← ho'.perform os, hw, hw']
  · rw [hc]
    exact Source.perform?_eq hr os
  · unfold File.ofReads Parser.ofReads
    rw [htext]

/-- An accented letter in one read, and cut in two by a read that is interrupted. -/
theorem Delivers.agree_accent :
    (Source.ofReads [.bytes ⟨#[0xC3]⟩, .interrupted, .bytes ⟨#[0xA9, 0x28]⟩]).perform
        [.mark, .rune, .advance, .segment, .pos] =
      (Source.ofReads [.bytes ⟨#[0xC3, 0xA9, 0x28]⟩, .bytes .empty]).perform
        [.mark, .rune, .advance, .segment, .pos] ∧
    File.ofReads "" [.bytes ⟨#[0xC3]⟩, .interrupted, .bytes ⟨#[0xA9, 0x28]⟩] =
      File.ofReads "" [.bytes ⟨#[0xC3, 0xA9, 0x28]⟩, .bytes .empty] := by
  have hcut : Delivers [.bytes ⟨#[0xC3]⟩, .interrupted, .bytes ⟨#[0xA9, 0x28]⟩]
      (⟨#[0xC3]⟩ ++ (⟨#[0xA9, 0x28]⟩ ++ .empty)) :=
    .chunk (by decide) (.interrupted (.chunk (by decide) .nothing))
  have hwhole : Delivers [.bytes ⟨#[0xC3, 0xA9, 0x28]⟩, .bytes .empty]
      (⟨#[0xC3, 0xA9, 0x28]⟩ ++ .empty) :=
    .chunk (by decide) (.ended [])
  have hbytes : (⟨#[0xC3, 0xA9, 0x28]⟩ ++ .empty : ByteArray) =
      ⟨#[0xC3]⟩ ++ (⟨#[0xA9, 0x28]⟩ ++ .empty) := by
    decide
  rw [hbytes] at hwhole
  have h := hcut.agree hwhole
  exact ⟨h.1 _, h.2.2.2 ""⟩

end FrontEnd
