import FrontEnd.Proofs.Reading.Decoding
import FrontEnd.Proofs.Reading.Runes

/-!
# How the bytes arrive

A source over reads that deliver some bytes behaves as one that had all of the bytes
before it from the beginning.  `Source.whole` is the latter, made from the former by
putting back what was dropped and adding what is still to come; every operation commutes
with it.  The invariant behind this is `Feed.Over`: the buffer is a part of the whole
input, the head is in it, and the mark is not past the head.
-/

namespace FrontEnd

/-- The reads bring these bytes, in pieces that are not empty, and then the end. -/
inductive Delivers : List Read → ByteArray → Prop where
  | nothing : Delivers [] .empty
  | ended (rs : List Read) : Delivers (.bytes .empty :: rs) .empty
  | interrupted {rs : List Read} {bytes : ByteArray} (h : Delivers rs bytes) :
    Delivers (.interrupted :: rs) bytes
  | chunk {chunk : ByteArray} {rs : List Read} {bytes : ByteArray} (hc : 0 < chunk.size)
      (h : Delivers rs bytes) : Delivers (.bytes chunk :: rs) (chunk ++ bytes)

namespace Window

/-- The head lies in the buffer, and the mark before the head. -/
structure InRange (w : Window) : Prop where
  head_le : w.head ≤ w.bytes.size
  mark_le : ∀ m, w.mark = some m → m ≤ w.head

/-- A window onto `bytes` behind which `rest` is still to be read. -/
structure Over (bytes rest : ByteArray) (w : Window) : Prop where
  cut : ∃ pre, bytes = pre ++ (w.bytes ++ rest) ∧ pre.size = w.base
  inRange : w.InRange

def whole (bytes : ByteArray) (w : Window) : Window :=
  ⟨bytes, 0, w.offset, w.mark.map (w.base + ·)⟩

variable {bytes rest : ByteArray} {w : Window}

theorem keep_le (w : Window) : min (w.mark.getD w.head) w.head ≤ w.head :=
  Nat.min_le_right _ _

theorem InRange.keep_eq (h : w.InRange) :
    min (w.mark.getD w.head) w.head = w.mark.getD w.head := by
  cases hm : w.mark with
  | none => exact Nat.min_self _
  | some m => exact Nat.min_eq_left (h.mark_le m hm)

theorem InRange.trim (h : w.InRange) : w.trim.InRange := by
  have hhead := h.head_le
  have hkeep := w.keep_le
  unfold Window.trim
  generalize hk : min (w.mark.getD w.head) w.head = keep at hkeep
  constructor
  · show w.head - keep ≤ (w.bytes.extract keep w.bytes.size).size
    rw [ByteArray.size_extract]
    omega
  · intro m hm
    obtain ⟨m', hm', rfl⟩ := Option.map_eq_some_iff.1 hm
    have hle := h.mark_le m' hm'
    show m' - keep ≤ w.head - keep
    omega

theorem InRange.append (h : w.InRange) (chunk : ByteArray) : (w.append chunk).InRange := by
  constructor
  · have hhead := h.head_le
    show w.head ≤ (w.bytes ++ chunk).size
    rw [ByteArray.size_append]
    omega
  · exact h.mark_le

theorem InRange.setMark (h : w.InRange) : w.setMark.InRange := by
  constructor
  · exact h.head_le
  · intro m hm
    cases hm
    exact Nat.le_refl _

theorem InRange.step {p : Utf8.Piece} (h : w.InRange) (hp : w.piece = some p) :
    (w.step p.width).InRange := by
  constructor
  · exact Utf8.width_le_of_at? hp
  · intro m hm
    have hle := h.mark_le m hm
    show m ≤ w.head + p.width
    omega

theorem over_empty (bytes : ByteArray) : Window.empty.Over bytes bytes := by
  refine ⟨⟨.empty, ?_, rfl⟩, ⟨Nat.le_refl _, fun m hm => ?_⟩⟩
  · rw [ByteArray.empty_append]
    exact (ByteArray.empty_append).symm
  · cases hm

theorem Over.size_eq (h : w.Over bytes rest) :
    bytes.size = w.offset + w.ahead + rest.size := by
  obtain ⟨pre, hb, hpre⟩ := h.cut
  have hhead := h.inRange.head_le
  have hsize := congrArg ByteArray.size hb
  rw [ByteArray.size_append, ByteArray.size_append, hpre] at hsize
  unfold offset ahead
  omega

theorem Over.trim (h : Over bytes rest w) : Over bytes rest w.trim := by
  obtain ⟨pre, hb, hpre⟩ := h.cut
  have hhead := h.inRange.head_le
  have hkeep := w.keep_le
  refine ⟨?_, h.inRange.trim⟩
  unfold Window.trim
  generalize hk : min (w.mark.getD w.head) w.head = keep at hkeep
  refine ⟨pre ++ w.bytes.extract 0 keep, ?_, ?_⟩
  · have hsplit : w.bytes.extract 0 keep ++ w.bytes.extract keep w.bytes.size = w.bytes := by
      rw [← ByteArray.extract_eq_extract_append_extract keep (Nat.zero_le _) (by omega),
        ByteArray.extract_zero_size]
    rw [ByteArray.append_assoc, ← ByteArray.append_assoc (a := w.bytes.extract 0 keep), hsplit]
    exact hb
  · rw [ByteArray.size_append, ByteArray.size_extract, hpre]
    show w.base + (min keep w.bytes.size - 0) = w.base + keep
    omega

theorem whole_append (w : Window) (chunk : ByteArray) :
    (w.append chunk).whole bytes = w.whole bytes := rfl

theorem Over.whole_trim (h : Over bytes rest w) : w.trim.whole bytes = w.whole bytes := by
  have hkeep := h.inRange.keep_eq
  unfold Window.trim whole offset
  rw [hkeep]
  cases hm : w.mark with
  | none =>
    simp
  | some m =>
    have hle := h.inRange.mark_le m hm
    simp
    omega

theorem Over.append {chunk : ByteArray} (h : Over bytes (chunk ++ rest) w) :
    Over bytes rest (w.append chunk) := by
  obtain ⟨pre, hb, hpre⟩ := h.cut
  refine ⟨⟨pre, ?_, hpre⟩, h.inRange.append chunk⟩
  show bytes = pre ++ (w.bytes ++ chunk ++ rest)
  rw [ByteArray.append_assoc]
  exact hb

theorem Over.setMark (h : Over bytes rest w) : Over bytes rest w.setMark :=
  ⟨h.cut, h.inRange.setMark⟩

theorem Over.step {p : Utf8.Piece} (h : Over bytes rest w) (hp : w.piece = some p) :
    Over bytes rest (w.step p.width) :=
  ⟨h.cut, h.inRange.step hp⟩

theorem whole_step (bytes : ByteArray) (n : Nat) (w : Window) :
    (w.step n).whole bytes = (w.whole bytes).step n := by
  unfold whole Window.step offset
  rw [← Nat.add_assoc]

/-- Once enough is in view, the piece at the head is that of the whole input. -/
theorem Over.piece_whole (h : Over bytes rest w)
    (hs : Feed.lookahead ≤ w.ahead ∨ rest = .empty) : (w.whole bytes).piece = w.piece := by
  obtain ⟨pre, hb, hpre⟩ := h.cut
  show Utf8.Piece.at? bytes (w.base + w.head) = Utf8.Piece.at? w.bytes w.head
  rw [hb, ← hpre]
  apply Utf8.at?_buffer
  rcases hs with hs | hs
  · have hhead := h.inRange.head_le
    unfold Feed.lookahead ahead at hs
    exact Or.inl (by omega)
  · exact Or.inr hs

theorem Over.segment_whole (h : Over bytes rest w) : (w.whole bytes).segment = w.segment := by
  obtain ⟨pre, hb, hpre⟩ := h.cut
  have hstart : (w.mark.map (w.base + ·)).getD w.offset = pre.size + w.mark.getD w.head := by
    rw [hpre]
    cases w.mark <;> rfl
  have hend : w.offset = pre.size + w.head := by
    rw [hpre]
    rfl
  have hhead := h.inRange.head_le
  unfold segment whole
  show Utf8.lossy (bytes.extract ((w.mark.map (w.base + ·)).getD w.offset) w.offset) 0 = _
  rw [hstart, hend, hb, ByteArray.extract_append_size_add, ByteArray.extract_append]
  have hnil :
      rest.extract (w.mark.getD w.head - w.bytes.size) (w.head - w.bytes.size) = .empty := by
    rw [ByteArray.extract_eq_empty_iff]
    omega
  rw [hnil, ByteArray.append_empty]

end Window

namespace Feed

/-- A feed of `bytes`: what its window does not hold yet will be delivered. -/
def Over (bytes : ByteArray) (f : Feed) : Prop :=
  ∃ rest, f.window.Over bytes rest ∧ if f.ended then rest = .empty else Delivers f.reads rest

def Ready (f : Feed) : Prop :=
  f.ended = true ∨ lookahead ≤ f.window.ahead

def whole (bytes : ByteArray) (f : Feed) : Feed :=
  ⟨f.window.whole bytes, [], true⟩

structure Filled (bytes : ByteArray) (w : Window) (r : Feed × Option String) : Prop where
  holds : r.1.Over bytes
  ready : r.1.Ready
  whole : r.1.window.whole bytes = w.whole bytes
  succeeded : r.2 = none

variable {bytes rest : ByteArray} {w : Window} {f : Feed}

theorem filled_seen {rs : List Read} (hd : Delivers rs rest) (h : w.Over bytes rest)
    (hs : lookahead ≤ w.ahead) : Filled bytes w (⟨w, rs, false⟩, none) :=
  ⟨⟨rest, h, hd⟩, Or.inr hs, rfl, rfl⟩

theorem filled_ended (rs : List Read) (h : w.Over bytes .empty) :
    Filled bytes w (⟨w.trim, rs, true⟩, none) :=
  ⟨⟨.empty, h.trim, rfl⟩, Or.inl rfl, h.whole_trim, rfl⟩

theorem filled_fillFrom {rs : List Read} (hd : Delivers rs rest) (h : w.Over bytes rest) :
    Filled bytes w (fillFrom w rs) := by
  induction hd generalizing w with
  | nothing =>
    unfold fillFrom
    by_cases hs : lookahead ≤ w.ahead
    · rw [if_pos hs]
      exact filled_seen .nothing h hs
    · rw [if_neg hs]
      exact filled_ended [] h
  | ended rs =>
    unfold fillFrom
    by_cases hs : lookahead ≤ w.ahead
    · rw [if_pos hs]
      exact filled_seen (.ended rs) h hs
    · rw [if_neg hs]
      exact filled_ended rs h
  | @interrupted rs rest hd ih =>
    unfold fillFrom
    by_cases hs : lookahead ≤ w.ahead
    · rw [if_pos hs]
      exact filled_seen (.interrupted hd) h hs
    · rw [if_neg hs]
      have hr := ih h.trim
      exact ⟨hr.holds, hr.ready, hr.whole.trans h.whole_trim, hr.succeeded⟩
  | @chunk c rs rest hc hd ih =>
    unfold fillFrom
    by_cases hs : lookahead ≤ w.ahead
    · rw [if_pos hs]
      exact filled_seen (.chunk hc hd) h hs
    · have hne : c.size ≠ 0 := Nat.pos_iff_ne_zero.1 hc
      rw [if_neg hs]
      dsimp only
      rw [if_neg hne]
      have hr := ih h.trim.append
      have hwhole := (Window.whole_append w.trim c).trans h.whole_trim
      exact ⟨hr.holds, hr.ready, hr.whole.trans hwhole, hr.succeeded⟩

theorem Over.filled (h : f.Over bytes) : Filled bytes f.window f.fill := by
  obtain ⟨rest, hw, hr⟩ := h
  unfold fill
  by_cases he : f.ended = true
  · rw [if_pos he] at hr ⊢
    refine ⟨⟨rest, hw, ?_⟩, Or.inl he, rfl, rfl⟩
    rw [if_pos he]
    exact hr
  · rw [if_neg he] at hr ⊢
    exact filled_fillFrom hr hw

theorem Over.piece_whole (h : f.Over bytes) (hr : f.Ready) :
    (f.window.whole bytes).piece = f.window.piece := by
  obtain ⟨rest, hw, hd⟩ := h
  apply hw.piece_whole
  rcases hr with he | hs
  · rw [if_pos he] at hd
    exact Or.inr hd
  · exact Or.inl hs

end Feed

namespace Source

def whole (bytes : ByteArray) (s : Source) : Source :=
  { s with feed := s.feed.whole bytes }

/-- A source of `bytes` that knows what it stands on. -/
structure Over (bytes : ByteArray) (s : Source) : Prop where
  feed : s.feed.Over bytes
  ready : s.feed.Ready

variable {bytes : ByteArray} {s : Source}

theorem pieceProblem_whole {w : Window} (h : (w.whole bytes).piece = w.piece) :
    pieceProblem (w.whole bytes) = pieceProblem w := by
  have ho : (w.whole bytes).offset = w.offset := Nat.zero_add _
  unfold pieceProblem
  rw [h, ho]

theorem whole_arrive (h : s.feed.Over bytes) : s.arrive.whole bytes = (s.whole bytes).arrive := by
  have hf := h.filled
  have hfeed : s.feed.fill.1.whole bytes = s.feed.whole bytes := by
    unfold Feed.whole
    rw [hf.whole]
  have hproblem : pieceProblem s.feed.fill.1.window = pieceProblem (s.feed.window.whole bytes) := by
    rw [← hf.whole, pieceProblem_whole (hf.holds.piece_whole hf.ready)]
  unfold arrive whole
  dsimp only
  rw [hf.succeeded, hproblem, hfeed]
  rfl

theorem over_arrive (h : s.feed.Over bytes) : s.arrive.Over bytes := by
  have hf := h.filled
  exact ⟨hf.holds, hf.ready⟩

theorem Over.piece_whole (h : s.Over bytes) :
    (s.whole bytes).feed.window.piece = s.feed.window.piece :=
  h.feed.piece_whole h.ready

theorem Over.rune_whole (h : s.Over bytes) : (s.whole bytes).rune = s.rune := by
  unfold rune
  rw [h.piece_whole]

theorem Over.segment_whole (h : s.Over bytes) : (s.whole bytes).segment = s.segment := by
  obtain ⟨rest, hw, -⟩ := h.feed
  exact congrArg String.ofList hw.segment_whole

theorem Over.mark (h : s.Over bytes) : s.mark.Over bytes := by
  obtain ⟨rest, hw, hr⟩ := h.feed
  exact ⟨⟨rest, hw.setMark, hr⟩, h.ready⟩

theorem Over.step {p : Utf8.Piece} (h : s.Over bytes) (hp : s.feed.window.piece = some p) :
    (s.step p.width).feed.Over bytes := by
  obtain ⟨rest, hw, hr⟩ := h.feed
  exact ⟨rest, hw.step hp, hr⟩

theorem whole_step (bytes : ByteArray) (n : Nat) (s : Source) :
    (s.step n).whole bytes = (s.whole bytes).step n := by
  unfold whole step Feed.whole
  rw [Window.whole_step]

theorem Over.advance (h : s.Over bytes) : s.advance.Over bytes := by
  unfold Source.advance
  cases hp : s.feed.window.piece with
  | none => exact h
  | some p => exact over_arrive (h.step hp)

theorem Over.whole_advance (h : s.Over bytes) :
    s.advance.whole bytes = (s.whole bytes).advance := by
  unfold Source.advance
  rw [h.piece_whole]
  cases hp : s.feed.window.piece with
  | none => rfl
  | some p =>
    have hs : ({ s.step p.width with pos := s.pos.after p.rune } : Source).feed.Over bytes :=
      h.step hp
    dsimp only
    rw [whole_arrive hs]
    exact congrArg (fun t : Source => arrive { t with pos := s.pos.after p.rune })
      (whole_step bytes p.width s)

def ofBytes (bytes : ByteArray) : Source :=
  let s := arrive ⟨⟨⟨bytes, 0, 0, none⟩, [], true⟩, .start, [], #[]⟩
  if s.rune = some byteOrderMark then
    let t := (s.step byteOrderMark.utf8Size).arrive
    { t with arrival := s.arrival ++ t.arrival }
  else s

theorem width_of_mark {p : Utf8.Piece} (h : p.rune = byteOrderMark) :
    p.width = byteOrderMark.utf8Size := by
  cases p with
  | scalar c => exact congrArg Char.utf8Size h
  | malformed => cases h

theorem ofReads_over {reads : List Read} (h : Delivers reads bytes) :
    (ofReads reads).Over bytes ∧ (ofReads reads).whole bytes = ofBytes bytes := by
  have hfeed : (Feed.ofReads reads).Over bytes := ⟨bytes, Window.over_empty bytes, h⟩
  unfold ofReads ofBytes
  generalize hs : arrive ⟨.ofReads reads, .start, [], #[]⟩ = s
  have ho : s.Over bytes := by
    rw [← hs]
    exact over_arrive hfeed
  have hw : s.whole bytes = arrive ⟨⟨⟨bytes, 0, 0, none⟩, [], true⟩, .start, [], #[]⟩ := by
    rw [← hs]
    exact whole_arrive hfeed
  rw [← hw]
  dsimp only
  rw [ho.rune_whole]
  by_cases hr : s.rune = some byteOrderMark
  · rw [if_pos hr, if_pos hr]
    obtain ⟨p, hp, hpr⟩ := Option.map_eq_some_iff.1 hr
    have hstep := ho.step hp
    rw [width_of_mark hpr] at hstep
    have ht := over_arrive hstep
    refine ⟨⟨ht.feed, ht.ready⟩, ?_⟩
    rw [← whole_step, ← whole_arrive hstep]
    rfl
  · rw [if_neg hr, if_neg hr]
    exact ⟨ho, rfl⟩

end Source

namespace Text

theorem fromRune_whole {bytes : ByteArray} (k : Nat) {s : Source} (h : s.Over bytes) :
    fromRune k (s.whole bytes) = fromRune k s := by
  induction k, s using fromRune.induct with
  | case1 k s hr =>
    rw [fromRune_none hr, fromRune_none (h.rune_whole.trans hr)]
    rfl
  | case2 k s c hr ih =>
    rw [fromRune_some hr, fromRune_some (h.rune_whole.trans hr), ← h.whole_advance, ih h.advance]
    rfl

theorem ofReads_eq {reads : List Read} {bytes : ByteArray} (h : Delivers reads bytes) :
    ofReads reads = fromRune 0 (.ofBytes bytes) := by
  obtain ⟨ho, hw⟩ := Source.ofReads_over h
  rw [← hw, fromRune_whole 0 ho]
  rfl

end Text
end FrontEnd
