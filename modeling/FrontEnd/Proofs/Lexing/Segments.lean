import FrontEnd.Proofs.Lexing.Lookahead
import FrontEnd.Proofs.Reading.Segment

/-!
# Words as segments

The word of a token is the segment of the source from the first rune of the token to the one
behind it.  No token has a replacement in it, so its bytes are well formed, and the text that
is cut out as a whole is the runes that were read one by one.

A read that fails does not matter here: the same bytes are in the window as if the input had
ended there.
-/

namespace FrontEnd

open Utf8

namespace Read

/-- An input that ends where this one fails. -/
def quiet : Read → Read
  | failed _ => bytes .empty
  | r => r

theorem exists_delivers (reads : List Read) : ∃ bytes, Delivers (reads.map quiet) bytes := by
  induction reads with
  | nil => exact ⟨.empty, .nothing⟩
  | cons r rs ih =>
    obtain ⟨rest, hrest⟩ := ih
    cases r with
    | interrupted => exact ⟨rest, .interrupted hrest⟩
    | failed reason => exact ⟨.empty, .ended _⟩
    | bytes chunk =>
      by_cases hc : chunk.size = 0
      · rw [ByteArray.size_eq_zero_iff.1 hc]
        exact ⟨.empty, .ended _⟩
      · exact ⟨chunk ++ rest, .chunk (Nat.pos_of_ne_zero hc) hrest⟩

end Read

namespace Feed

def quiet (f : Feed) : Feed :=
  { f with reads := f.reads.map .quiet }

theorem fillFrom_quiet (w : Window) (rs : List Read) :
    fillFrom w (rs.map .quiet) = ((fillFrom w rs).1.quiet, none) := by
  induction rs generalizing w with
  | nil =>
    show fillFrom w [] = _
    unfold fillFrom
    split <;> rfl
  | cons r rs ih =>
    rw [List.map_cons]
    unfold fillFrom
    split
    · rfl
    · cases r with
      | interrupted => exact ih w.trim
      | failed reason => rfl
      | bytes chunk =>
        dsimp only [Read.quiet]
        split
        · rfl
        · exact ih (w.trim.append chunk)

theorem fill_quiet (f : Feed) : f.quiet.fill.1 = f.fill.1.quiet := by
  unfold fill
  show (if f.ended = true then (f.quiet, none) else _).1 = _
  split
  · rfl
  · exact congrArg Prod.fst (fillFrom_quiet f.window f.reads)

end Feed

namespace Source

/-! ## Reading in spite of failures -/

section Quiet

variable {s t : Source}

theorem rune_quiet (h : t.feed = s.feed.quiet) : t.rune = s.rune := by
  unfold rune
  rw [h]
  rfl

theorem segment_quiet (h : t.feed = s.feed.quiet) : t.segment = s.segment := by
  unfold segment
  rw [h]
  rfl

theorem arrive_quiet (h : t.feed = s.feed.quiet) : t.arrive.feed = s.arrive.feed.quiet := by
  show t.feed.fill.1 = s.feed.fill.1.quiet
  rw [h, Feed.fill_quiet]

theorem advance_quiet (h : t.feed = s.feed.quiet) : t.advance.feed = s.advance.feed.quiet := by
  have hwindow : t.feed.window = s.feed.window := by
    rw [h]
    rfl
  unfold advance
  rw [hwindow]
  cases s.feed.window.piece with
  | none => exact h
  | some p =>
    apply arrive_quiet
    show { t.feed with window := t.feed.window.step p.width } = _
    rw [h]
    rfl

theorem mark_quiet (h : t.feed = s.feed.quiet) : t.mark.feed = s.mark.feed.quiet := by
  show { t.feed with window := t.feed.window.setMark } = _
  rw [h]
  rfl

theorem run_quiet (h : t.feed = s.feed.quiet) (os : List Operation) :
    (t.run os).feed = (s.run os).feed.quiet := by
  induction os generalizing s t with
  | nil => exact h
  | cons o os ih =>
    apply ih
    cases o with
    | advance => exact advance_quiet h
    | mark => exact mark_quiet h
    | segment | rune | pos => exact h

theorem take_quiet (h : t.feed = s.feed.quiet) (n : Nat) : (t.take n).1 = (s.take n).1 := by
  induction n generalizing s t with
  | zero => rfl
  | succ n ih =>
    have hrune := rune_quiet h
    cases hr : s.rune with
    | none => rw [take_none hr, take_none (hrune.trans hr)]
    | some c => rw [take_some hr, take_some (hrune.trans hr), ih (advance_quiet h)]

end Quiet

theorem ofReads_quiet (reads : List Read) :
    (ofReads (reads.map .quiet)).feed = (ofReads reads).feed.quiet := by
  have hfirst : (arrive ⟨.ofReads (reads.map .quiet), .start, [], #[]⟩).feed =
      (arrive ⟨.ofReads reads, .start, [], #[]⟩).feed.quiet := arrive_quiet rfl
  unfold ofReads
  generalize arrive ⟨.ofReads (reads.map .quiet), .start, [], #[]⟩ = t at hfirst
  generalize arrive ⟨.ofReads reads, .start, [], #[]⟩ = s at hfirst
  dsimp only
  rw [rune_quiet hfirst]
  split
  · apply arrive_quiet
    show { t.feed with window := t.feed.window.step byteOrderMark.utf8Size } = _
    rw [hfirst]
    rfl
  · exact hfirst

/-! ## What is read after some operations -/

variable {bytes : ByteArray} {i : Nat} {s : Source}

theorem take_at (h : s.feed.At bytes i) (n : Nat) :
    (s.take n).1 = ((pieces bytes i).take n).map Piece.rune := by
  induction n generalizing s i with
  | zero => rfl
  | succ n ih =>
    cases hp : Piece.at? bytes i with
    | none =>
      have hr : s.rune = none := by rw [rune_at h, hp]; rfl
      rw [take_none hr, pieces_none hp]
      rfl
    | some p =>
      have hr : s.rune = some p.rune := by rw [rune_at h, hp]; rfl
      rw [take_some hr, pieces_some hp, ih (at_advance h hp)]
      rfl

/-- Each advance passes a piece, and nothing else moves the head. -/
theorem run_at (h : s.feed.At bytes i) (os : List Operation) :
    (s.run os).feed.At bytes (i + span ((pieces bytes i).take (os.count .advance))) := by
  induction os generalizing s i with
  | nil => exact h
  | cons o os ih =>
    cases o with
    | advance =>
      show (s.advance.run os).feed.At bytes _
      rw [List.count_cons_self]
      cases hp : Piece.at? bytes i with
      | none =>
        have hr : s.rune = none := by rw [rune_at h, hp]; rfl
        have hrest := ih h
        rw [pieces_none hp, List.take_nil] at hrest ⊢
        rwa [advance_none hr]
      | some p =>
        rw [pieces_some hp, List.take_succ_cons, span_cons, ← Nat.add_assoc]
        exact ih (at_advance h hp)
    | mark | segment | rune | pos =>
      rw [List.count_cons_of_ne (by decide)]
      exact ih ⟨h.bytes, h.base, h.head, h.ended⟩

theorem Over.whole_run (h : s.Over bytes) (os : List Operation) :
    (s.run os).whole bytes = (s.whole bytes).run os := by
  induction os generalizing s with
  | nil => rfl
  | cons o os ih =>
    obtain ⟨ho, hw⟩ := h.operate o
    show ((s.operate o).2.run os).whole bytes = ((s.whole bytes).operate o).2.run os
    rw [ih ho, hw]

theorem take_runes (k n : Nat) (s : Source) : (Text.fromRune k s).runes.take n = (s.take n).1 := by
  induction n generalizing k s with
  | zero => rfl
  | succ n ih =>
    cases hr : s.rune with
    | none =>
      rw [take_none hr, Text.fromRune_none hr]
      rfl
    | some c => rw [take_some hr, Text.fromRune_some hr, List.take_succ_cons, ih]

/-- What is read after some operations is the text behind as many runes as there were
advances. -/
theorem take_run (reads : List Read) (os : List Operation) (n : Nat) :
    (((ofReads reads).run os).take n).1 =
      ((Text.ofReads reads).runes.drop (os.count .advance)).take n := by
  obtain ⟨bytes, hd⟩ := Read.exists_delivers reads
  have hquiet := ofReads_quiet reads
  obtain ⟨ho, -⟩ := ofReads_over hd
  have hat : ((ofReads (reads.map .quiet)).whole bytes).feed.At bytes
      (ofReads (reads.map .quiet)).feed.window.offset := ⟨rfl, rfl, rfl, rfl⟩
  have hle := ho.offset_le
  generalize (ofReads (reads.map .quiet)).feed.window.offset = i at hat hle
  have hrun : (((ofReads reads).run os).take n).1 =
      (((pieces bytes i).drop (os.count .advance)).take n).map Piece.rune := by
    have hsplit := (pieces_split hle (List.take_append_drop (os.count .advance) _).symm).2
    rw [← take_quiet (run_quiet hquiet os), ← (ho.run os).take, ho.whole_run,
      take_at (run_at hat os), hsplit]
  have htext : (Text.ofReads reads).runes.take (os.count .advance + n) =
      ((pieces bytes i).take (os.count .advance + n)).map Piece.rune := by
    rw [Text.ofReads, take_runes, ← take_quiet hquiet, ← ho.take, take_at hat]
  rw [hrun, List.take_drop, List.take_drop, htext, List.map_drop]

/-! ## Segments of well-formed text -/

theorem run_eq_advanceBy (s : Source) {os : List Operation} (h : .mark ∉ os) :
    s.run os = s.advanceBy (os.count .advance) := by
  induction os generalizing s with
  | nil => rfl
  | cons o os ih =>
    have hos : .mark ∉ os := fun hm => h (List.mem_cons_of_mem o hm)
    cases o with
    | advance =>
      rw [List.count_cons_self]
      exact ih s.advance hos
    | mark => exact absurd List.mem_cons_self h
    | segment | rune | pos =>
      rw [List.count_cons_of_ne (by decide)]
      exact ih s hos

theorem separate_scalars (bytes : ByteArray) (i : Nat) (cs : List Char) :
    Separate bytes i (cs.map .scalar) := by
  intro as bs h
  have hm : Piece.malformed ∈ cs.map Piece.scalar := by simp [h]
  obtain ⟨c, -, hc⟩ := List.mem_map.1 hm
  cases hc

/-- A segment of a text without replacements is the runes from the mark on, whatever the reads
and whatever was done before. -/
theorem segment_run (reads : List Read) (before within : List Operation) (hm : .mark ∉ within)
    {word : List Char} (hw : ((Text.ofReads reads).runes.drop (before.count .advance)).take
      (within.count .advance) = word) (hr : replacement ∉ word) :
    (((ofReads reads).run before).mark.run within).segment = String.ofList word := by
  obtain ⟨bytes, hd⟩ := Read.exists_delivers reads
  have hquiet := mark_quiet (run_quiet (ofReads_quiet reads) before)
  obtain ⟨hrunes, -, -, hiff⟩ := segment_reads hd before (within.count .advance)
  have htake : (((ofReads (reads.map .quiet)).run before).mark.take (within.count .advance)).1 =
      word := by
    have hmarked := take_run reads (before ++ [.mark]) (within.count .advance)
    rw [run, List.foldl_append, List.count_append, List.count_cons_of_ne (by decide)] at hmarked
    rw [take_quiet hquiet]
    exact hmarked.trans hw
  rw [htake] at hrunes hiff
  have hscalars := eq_scalars fun c hc h => hr (hrunes ▸ h ▸ hc)
  rw [← hrunes] at hscalars
  have htext := hiff.2 (hscalars ▸ separate_scalars _ 0 word)
  rw [← segment_quiet (run_quiet hquiet within), run_eq_advanceBy _ hm, ← htext,
    String.ofList_toList]

end Source

namespace Lexeme

/-- No token has a replacement in it. -/
theorem replacement_not_mem {c : Char} (hc : beginsToken c = true) (cs : List Char) :
    replacement ∉ (scan c cs).runes := by
  intro h
  rcases breaks_of_mem h with rfl | hbreak
  · revert hc
    decide +kernel
  · cases hbreak

end Lexeme

namespace Lexer

variable {x : Lexer} {t : Text}

theorem replacement_not_mem (x : Lexer) : replacement ∉ x.lexeme.runes := by
  rcases x.ahead_cases with ha | ⟨c, cs, ha, hc⟩
  · unfold lexeme
    rw [ha]
    exact List.not_mem_nil
  · rw [lexeme_eq_scan ha]
    exact Lexeme.replacement_not_mem hc cs

theorem rest_next (x : Lexer) :
    x.next.rest = x.rest.drop (x.gap.length + x.lexeme.runes.length) := by
  rw [← List.drop_drop]
  conv_rhs => rw [x.rest_eq, List.drop_left, List.drop_left]

theorem rest_nextBy_eq_drop (h : x.rest = t.runes.drop x.passed) (n : Nat) :
    (x.nextBy n).rest = t.runes.drop (x.nextBy n).passed := by
  induction n generalizing x with
  | zero => exact h
  | succ n ih =>
    apply ih
    rw [rest_next, h, x.passed_next, List.drop_drop, Nat.add_assoc]

/-- The word of every token is the segment from its first rune to the rune behind it, whatever
the reads, whatever was done before the mark, and whatever else is done behind it. -/
theorem segment_lexeme (reads : List Read) (n : Nat) (before within : List Operation) :
    let x := (ofText (.ofReads reads)).nextBy n
    before.count .advance = x.passed + x.gap.length → .mark ∉ within →
      within.count .advance = x.lexeme.runes.length →
        (((Source.ofReads reads).run before).mark.run within).segment =
          x.next.current.token.lexeme := by
  intro x hbefore hmark hwithin
  have hrest : x.rest = (Text.ofReads reads).runes.drop x.passed := rest_nextBy_eq_drop rfl n
  have hword : ((Text.ofReads reads).runes.drop (before.count .advance)).take
      (within.count .advance) = x.lexeme.runes := by
    rw [hbefore, hwithin, ← List.drop_drop, ← hrest]
    conv_lhs => rw [x.rest_eq, List.drop_left, List.take_left]
  exact Source.segment_run reads before within hmark hword x.replacement_not_mem

end Lexer
end FrontEnd
