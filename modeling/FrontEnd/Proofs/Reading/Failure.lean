import FrontEnd.Proofs.Reading.Segment

/-!
# Reads that break off

A read may fail behind some bytes.  The runes are then those of the bytes, as at the end of
an input, and what is reported is the same but for the failure.  That is reported at the
first rune, or the end, with fewer bytes left than the longest character takes, since there
the read was tried, and nothing is read after it.
-/

namespace FrontEnd

/-- The reads bring these bytes, in pieces that are not empty, and then fail; `later` is what
they would have brought after that. -/
inductive Breaks (reason : String) (later : List Read) : List Read → ByteArray → Prop where
  | failed : Breaks reason later (.failed reason :: later) .empty
  | interrupted {rs : List Read} {bytes : ByteArray} (h : Breaks reason later rs bytes) :
    Breaks reason later (.interrupted :: rs) bytes
  | chunk {chunk : ByteArray} {rs : List Read} {bytes : ByteArray} (hc : 0 < chunk.size)
      (h : Breaks reason later rs bytes) : Breaks reason later (.bytes chunk :: rs) (chunk ++ bytes)

variable {reason : String} {later : List Read} {bytes rest : ByteArray}

/-- As long as the failure is to come, so are the reads behind it. -/
theorem Breaks.exists_front {rs : List Read} (h : Breaks reason later rs bytes) :
    ∃ front, rs = front ++ .failed reason :: later := by
  induction h with
  | failed => exact ⟨[], rfl⟩
  | interrupted h ih =>
    obtain ⟨front, rfl⟩ := ih
    exact ⟨_ :: front, rfl⟩
  | chunk hc h ih =>
    obtain ⟨front, rfl⟩ := ih
    exact ⟨_ :: front, rfl⟩

namespace Utf8

theorem span_pieces {i : Nat} (hi : i ≤ bytes.size) : span (pieces bytes i) = bytes.size - i := by
  obtain ⟨hle, hnil⟩ := pieces_split hi (List.append_nil _).symm
  have hend : ¬ i + span (pieces bytes i) < bytes.size := by
    rw [← Piece.at?_isSome_iff, ← head?_pieces, hnil]
    simp
  omega

/-- The number of pieces in front of which there is enough for the longest character. -/
def runsOut : List Piece → Nat
  | [] => 0
  | p :: ps => if Feed.lookahead ≤ span (p :: ps) then runsOut ps + 1 else 0

theorem runsOut_short {ps : List Piece} (h : span ps < Feed.lookahead) : runsOut ps = 0 := by
  cases ps with
  | nil => rfl
  | cons p ps => exact if_neg (Nat.not_le_of_lt h)

theorem runsOut_cons {p : Piece} {ps : List Piece} (h : Feed.lookahead ≤ span (p :: ps)) :
    runsOut (p :: ps) = runsOut ps + 1 :=
  if_pos h

/-- The pieces run out at the first of them, or the end, where fewer bytes are left. -/
theorem runsOut_spec (ps : List Piece) : span (ps.drop (runsOut ps)) < Feed.lookahead ∧
    ∀ j < runsOut ps, Feed.lookahead ≤ span (ps.drop j) := by
  induction ps with
  | nil => exact ⟨by decide, nofun⟩
  | cons p ps ih =>
    by_cases h : Feed.lookahead ≤ span (p :: ps)
    · rw [runsOut_cons h]
      refine ⟨ih.1, fun j hj => ?_⟩
      cases j with
      | zero => exact h
      | succ j => exact ih.2 j (Nat.lt_of_succ_lt_succ hj)
    · rw [runsOut_short (Nat.lt_of_not_le h)]
      exact ⟨Nat.lt_of_not_le h, nofun⟩

def lost (reason : String) (p : Position) (ps : List Piece) : Diagnostic :=
  ⟨p.afterAll ((ps.take (runsOut ps)).map Piece.rune), .readFailure reason⟩

def brokenMarks (reason : String) (k : Nat) (p : Position) (ps : List Piece) :
    List (Nat × Diagnostic) :=
  marks k p (ps.take (runsOut ps)) ++ (k + runsOut ps, lost reason p ps) ::
    marks (k + runsOut ps) (lost reason p ps).pos (ps.drop (runsOut ps))

theorem brokenMarks_short {ps : List Piece} (h : span ps < Feed.lookahead) (k : Nat)
    (p : Position) :
    brokenMarks reason k p ps = (k, ⟨p, .readFailure reason⟩) :: marks k p ps := by
  unfold brokenMarks lost
  rw [runsOut_short h]
  rfl

theorem brokenMarks_cons {q : Piece} {qs : List Piece} (h : Feed.lookahead ≤ span (q :: qs))
    (k : Nat) (p : Position) : brokenMarks reason k p (q :: qs) =
      (q.mark p).map (k, ·) ++ brokenMarks reason (k + 1) (p.after q.rune) qs := by
  have hk : k + (runsOut qs + 1) = k + 1 + runsOut qs := by omega
  unfold brokenMarks lost
  rw [runsOut_cons h, hk, List.take_succ_cons, List.drop_succ_cons, marks, List.append_assoc]
  rfl

end Utf8

/-! ## The bytes in front of the failure -/

theorem Window.offset_eq_of_whole {v w : Window} (h : v.whole bytes = w.whole bytes) :
    v.offset = w.offset :=
  congrArg Window.head h

namespace Feed

/-- A feed of `bytes` and of a failure behind them.  Once that is over nothing is read. -/
def Breaking (reason : String) (later : List Read) (bytes : ByteArray) (f : Feed) : Prop :=
  ∃ rest, f.window.Over bytes rest ∧
    if f.ended then rest = .empty ∧ f.reads = later else Breaks reason later f.reads rest

/-- What filling the window `w` results in: the failure exactly if it takes more bytes than
there are. -/
structure FilledOrBroken (reason : String) (later : List Read) (bytes : ByteArray) (w : Window)
    (r : Feed × Option String) : Prop where
  holds : r.1.Breaking reason later bytes
  ready : r.1.Ready
  whole : r.1.window.whole bytes = w.whole bytes
  ended : r.1.ended = true ↔ bytes.size < w.offset + lookahead
  failure : r.2 = if r.1.ended then some reason else none

variable {w : Window} {f : Feed}

theorem filledOrBroken_seen {rs : List Read} (hb : Breaks reason later rs rest)
    (h : w.Over bytes rest) (hs : lookahead ≤ w.ahead) :
    FilledOrBroken reason later bytes w (⟨w, rs, false⟩, none) := by
  refine ⟨⟨rest, h, hb⟩, Or.inr hs, rfl, ?_, rfl⟩
  have hsize := h.size_eq
  simp
  omega

theorem FilledOrBroken.of_whole {v : Window} {r : Feed × Option String}
    (h : FilledOrBroken reason later bytes v r) (hw : v.whole bytes = w.whole bytes) :
    FilledOrBroken reason later bytes w r :=
  ⟨h.holds, h.ready, h.whole.trans hw, Window.offset_eq_of_whole hw ▸ h.ended, h.failure⟩

theorem filledOrBroken_fillFrom {rs : List Read} (hb : Breaks reason later rs rest)
    (h : w.Over bytes rest) : FilledOrBroken reason later bytes w (fillFrom w rs) := by
  induction hb generalizing w with
  | failed =>
    unfold fillFrom
    by_cases hs : lookahead ≤ w.ahead
    · rw [if_pos hs]
      exact filledOrBroken_seen .failed h hs
    · rw [if_neg hs]
      refine ⟨⟨.empty, h.trim, rfl, rfl⟩, Or.inl rfl, h.whole_trim, ?_, rfl⟩
      have hsize := h.size_eq
      rw [ByteArray.size_empty] at hsize
      simp
      omega
  | interrupted hb ih =>
    unfold fillFrom
    by_cases hs : lookahead ≤ w.ahead
    · rw [if_pos hs]
      exact filledOrBroken_seen (.interrupted hb) h hs
    · rw [if_neg hs]
      exact (ih h.trim).of_whole h.whole_trim
  | @chunk c rs rest hc hb ih =>
    unfold fillFrom
    by_cases hs : lookahead ≤ w.ahead
    · rw [if_pos hs]
      exact filledOrBroken_seen (.chunk hc hb) h hs
    · have hne : c.size ≠ 0 := Nat.pos_iff_ne_zero.1 hc
      rw [if_neg hs]
      dsimp only
      rw [if_neg hne]
      exact (ih h.trim.append).of_whole ((Window.whole_append w.trim c).trans h.whole_trim)

theorem Breaking.filled (h : f.Breaking reason later bytes) (he : f.ended = false) :
    FilledOrBroken reason later bytes f.window f.fill := by
  obtain ⟨rest, hw, hr⟩ := h
  have hn : ¬ f.ended = true := by simp [he]
  unfold fill
  rw [if_neg hn] at hr ⊢
  exact filledOrBroken_fillFrom hr hw

/-- What comes after a failure is as if the input had come to its end. -/
theorem Breaking.over (h : f.Breaking reason later bytes) (he : f.ended = true) :
    f.Over bytes := by
  obtain ⟨rest, hw, hr⟩ := h
  rw [if_pos he] at hr
  refine ⟨rest, hw, ?_⟩
  rw [if_pos he]
  exact hr.1

theorem Breaking.piece_whole (h : f.Breaking reason later bytes) (hr : f.Ready) :
    (f.window.whole bytes).piece = f.window.piece := by
  obtain ⟨rest, hw, hd⟩ := h
  apply hw.piece_whole
  rcases hr with he | hs
  · rw [if_pos he] at hd
    exact Or.inr hd.1
  · exact Or.inl hs

end Feed
open Utf8

namespace Source

variable {s : Source}

/-! ## Operations -/

/-- A source of `bytes` and of a failure behind them that knows what it stands on.  It has
reported the failure once nothing is read any more. -/
structure Breaking (reason : String) (later : List Read) (bytes : ByteArray) (s : Source) :
    Prop where
  feed : s.feed.Breaking reason later bytes
  ready : s.feed.Ready
  told : (∃ d ∈ s.log.toList, d.problem = .readFailure reason) ↔ s.feed.ended = true

theorem pieceProblem_ne_readFailure {w : Window} {p : Problem} (h : pieceProblem w = some p) :
    p ≠ .readFailure reason := by
  unfold pieceProblem at h
  split at h
  · cases h
    exact Problem.noConfusion
  · split at h <;> cases h
    exact Problem.noConfusion
  · cases h

theorem arrival_arrive (s : Source) : s.arrive.arrival =
    ((s.feed.fill.2.map Problem.readFailure).toList ++
      (pieceProblem s.feed.fill.1.window).toList).map (Diagnostic.mk s.pos) := rfl

/-- A source has reported a failure if it had before or the read that it tried failed. -/
theorem exists_failure_arrive (s : Source) :
    (∃ d ∈ s.arrive.log.toList, d.problem = .readFailure reason) ↔
      (∃ d ∈ s.log.toList, d.problem = .readFailure reason) ∨ s.feed.fill.2 = some reason := by
  have hproblem : ∀ p, pieceProblem s.feed.fill.1.window = some p → p ≠ .readFailure reason :=
    fun _ => pieceProblem_ne_readFailure
  rw [log_arrive, arrival_arrive]
  generalize pieceProblem s.feed.fill.1.window = problem at hproblem
  constructor
  · rintro ⟨d, hd, hr⟩
    rcases List.mem_append.1 hd with hd | hd
    · exact Or.inl ⟨d, hd, hr⟩
    · obtain ⟨p, hp, rfl⟩ := List.mem_map.1 hd
      rcases List.mem_append.1 hp with hp | hp
      · obtain ⟨m, hm, rfl⟩ := Option.map_eq_some_iff.1 (Option.mem_toList.1 hp)
        exact Or.inr (hm.trans (congrArg some (Problem.readFailure.inj hr)))
      · exact absurd hr (hproblem p (Option.mem_toList.1 hp))
  · rintro (⟨d, hd, hr⟩ | hr)
    · exact ⟨d, List.mem_append_left _ hd, hr⟩
    · exact ⟨⟨s.pos, .readFailure reason⟩, by simp [hr], rfl⟩

theorem breaking_arrive (h : s.feed.Breaking reason later bytes)
    (ht : (∃ d ∈ s.log.toList, d.problem = .readFailure reason) ↔ s.feed.ended = true) :
    s.arrive.Breaking reason later bytes := by
  cases he : s.feed.ended with
  | true =>
    have hf : s.feed.fill = (s.feed, none) := if_pos he
    have hfeed : s.arrive.feed = s.feed := congrArg Prod.fst hf
    refine ⟨hfeed.symm ▸ h, Or.inl (hfeed.symm ▸ he), ?_⟩
    rw [exists_failure_arrive, hfeed]
    exact ⟨fun _ => he, fun _ => Or.inl (ht.2 he)⟩
  | false =>
    have hf := h.filled he
    refine ⟨hf.holds, hf.ready, ?_⟩
    rw [exists_failure_arrive, ht, he, hf.failure]
    show _ ↔ s.feed.fill.1.ended = true
    cases s.feed.fill.1.ended <;> simp

theorem Breaking.step {p : Piece} (h : s.feed.Breaking reason later bytes)
    (hp : s.feed.window.piece = some p) :
    (s.step p.width).feed.Breaking reason later bytes := by
  obtain ⟨rest, hw, hr⟩ := h
  exact ⟨rest, hw.step hp, hr⟩

theorem Breaking.advance (h : s.Breaking reason later bytes) :
    s.advance.Breaking reason later bytes := by
  unfold Source.advance
  cases hp : s.feed.window.piece with
  | none => exact h
  | some p => exact breaking_arrive (Breaking.step h.feed hp) h.told

theorem Breaking.mark (h : s.Breaking reason later bytes) : s.mark.Breaking reason later bytes := by
  obtain ⟨rest, hw, hr⟩ := h.feed
  exact ⟨⟨rest, hw.setMark, hr⟩, h.ready, h.told⟩

theorem Breaking.run (h : s.Breaking reason later bytes) (os : List Operation) :
    (s.run os).Breaking reason later bytes := by
  induction os generalizing s with
  | nil => exact h
  | cons o os ih =>
    refine ih ?_
    cases o with
    | advance => exact h.advance
    | mark => exact h.mark
    | segment | rune | pos => exact h

theorem breaking_start {reads : List Read} (h : Breaks reason later reads bytes) :
    (Feed.ofReads reads).Breaking reason later bytes :=
  ⟨bytes, Window.over_empty bytes, h⟩

theorem breaking_ofReads {reads : List Read} (h : Breaks reason later reads bytes) :
    (ofReads reads).Breaking reason later bytes := by
  have hfirst := breaking_arrive (s := ⟨.ofReads reads, .start, [], #[]⟩) (breaking_start h)
    (by simp [Feed.ofReads])
  unfold ofReads
  generalize arrive ⟨.ofReads reads, .start, [], #[]⟩ = s at hfirst
  dsimp only
  by_cases hr : s.rune = some byteOrderMark
  · rw [if_pos hr]
    obtain ⟨p, hp, hpr⟩ := Option.map_eq_some_iff.1 hr
    have hstep := Breaking.step hfirst.feed hp
    rw [width_of_mark hpr] at hstep
    have hsecond := breaking_arrive hstep hfirst.told
    exact ⟨hsecond.feed, hsecond.ready, hsecond.told⟩
  · rw [if_neg hr]
    exact hfirst

/-- Whatever is done, the reads behind the failure are not made: they are still there once
it has been reported, and before that so is the failure. -/
theorem reads_run {reads : List Read} (h : Breaks reason later reads bytes)
    (os : List Operation) :
    let s := (ofReads reads).run os
    ((∃ d ∈ s.log.toList, d.problem = .readFailure reason) → s.feed.reads = later) ∧
      ((∀ d ∈ s.log.toList, d.problem ≠ .readFailure reason) →
        ∃ front, s.feed.reads = front ++ .failed reason :: later) := by
  intro s
  have hs : s.Breaking reason later bytes := (breaking_ofReads h).run os
  obtain ⟨rest, -, hr⟩ := hs.feed
  constructor
  · intro ht
    rw [if_pos (hs.told.1 ht)] at hr
    exact hr.2
  · intro ht
    have hne : ¬ s.feed.ended = true := fun he => by
      obtain ⟨d, hd, hdr⟩ := hs.told.2 he
      exact ht d hd hdr
    rw [if_neg hne] at hr
    exact hr.exists_front

/-! ## The text -/

/-- More that is reported on arrival is reported first, and nothing else changes. -/
theorem fromRune_arrival (s : Source) {t : Source} (ds : List Diagnostic) (k : Nat)
    (ht : t = { s with arrival := ds ++ s.arrival }) : Text.fromRune k t =
      ⟨(Text.fromRune k s).runes, ds.map (k, ·) ++ (Text.fromRune k s).reports⟩ := by
  have harrival : t.arrival = ds ++ s.arrival := by rw [ht]
  have hrune : t.rune = s.rune := by
    rw [ht]
    rfl
  cases hr : s.rune with
  | none =>
    rw [Text.fromRune_none hr, Text.fromRune_none (hrune.trans hr), harrival, List.map_append]
  | some c =>
    have hadv : t.advance = s.advance := by
      obtain ⟨p, hp, -⟩ := Option.map_eq_some_iff.1 hr
      rw [ht]
      unfold Source.advance
      rw [hp]
      rfl
    rw [Text.fromRune_some hr, Text.fromRune_some (hrune.trans hr), hadv, harrival,
      List.map_append, List.append_assoc]

/-- What a source says from here on once nothing is left to be read. -/
theorem fromRune_over {ds : List Diagnostic} (h : s.Over bytes)
    (ha : s.arrival = ds ++ arrivalAt bytes s.feed.window.offset s.pos) (k : Nat) :
    Text.fromRune k s = ⟨(pieces bytes s.feed.window.offset).map Piece.rune,
      ds.map (k, ·) ++ marks k s.pos (pieces bytes s.feed.window.offset)⟩ := by
  generalize hi : s.feed.window.offset = i at ha
  have hplain : ({ s with arrival := arrivalAt bytes i s.pos } : Source).Over bytes :=
    ⟨h.feed, h.ready⟩
  have hat : (({ s with arrival := arrivalAt bytes i s.pos } : Source).whole bytes).feed.At
      bytes i := ⟨rfl, rfl, hi, rfl⟩
  have htext := fromRune_at hat rfl k
  rw [Text.fromRune_whole k hplain] at htext
  rw [fromRune_arrival { s with arrival := arrivalAt bytes i s.pos } ds k (by rw [← ha]), htext]
  rfl

theorem piece_breaking {i : Nat} (h : s.feed.Breaking reason later bytes)
    (he : s.feed.ended = false) (hi : s.feed.window.offset = i) :
    s.arrive.feed.window.piece = Piece.at? bytes i := by
  have hf := h.filled he
  have hat : (s.whole bytes).feed.At bytes i := ⟨rfl, rfl, hi, rfl⟩
  have hwhole := Feed.Breaking.piece_whole hf.holds hf.ready
  rw [hf.whole] at hwhole
  exact hwhole.symm.trans (piece_at hat)

/-- Past a piece the source is still in front of the failure, which it has met if the read
was tried at the piece. -/
theorem step_breaking {i : Nat} {p : Piece} (h : s.feed.Breaking reason later bytes)
    (he : s.feed.ended = false) (hi : s.feed.window.offset = i)
    (hp : Piece.at? bytes i = some p) :
    (s.arrive.step p.width).feed.Breaking reason later bytes ∧
      (s.arrive.step p.width).feed.window.offset = i + p.width ∧
      ((s.arrive.step p.width).feed.ended = true ↔ bytes.size < i + Feed.lookahead) := by
  have hf := h.filled he
  refine ⟨Breaking.step hf.holds ((piece_breaking h he hi).trans hp), ?_, hi ▸ hf.ended⟩
  rw [← hi, ← Window.offset_eq_of_whole hf.whole]
  exact (Nat.add_assoc _ _ _).symm

/-- The failure is reported if it is now that the read is tried, and first. -/
theorem arrival_filled (h : s.feed.Breaking reason later bytes) (he : s.feed.ended = false) :
    s.arrive.arrival =
      (if bytes.size < s.feed.window.offset + Feed.lookahead then
        [⟨s.pos, .readFailure reason⟩] else []) ++
      (pieceProblem (s.feed.window.whole bytes)).toList.map (Diagnostic.mk s.pos) := by
  have hf := h.filled he
  rw [arrival_arrive, List.map_append, hf.failure,
    ← pieceProblem_whole (hf.holds.piece_whole hf.ready), hf.whole]
  by_cases hs : bytes.size < s.feed.window.offset + Feed.lookahead
  · rw [if_pos hs, if_pos (hf.ended.2 hs)]
    rfl
  · rw [if_neg hs, if_neg fun hen => hs (hf.ended.1 hen)]
    rfl

theorem arrival_breaking (h : s.feed.Breaking reason later bytes) (he : s.feed.ended = false)
    (hi : 0 < s.feed.window.offset ∨
      Piece.at? bytes s.feed.window.offset ≠ some (.scalar byteOrderMark)) :
    s.arrive.arrival =
      (if bytes.size < s.feed.window.offset + Feed.lookahead then
        [⟨s.pos, .readFailure reason⟩] else []) ++
      arrivalAt bytes s.feed.window.offset s.pos := by
  have hat : (s.whole bytes).feed.At bytes s.feed.window.offset := ⟨rfl, rfl, rfl, rfl⟩
  rw [arrival_filled h he]
  exact congrArg _ ((arrive_at hat).2.symm.trans (arrival_at hat hi))

/-- Where the read is tried at once, the failure is what is reported first. -/
theorem fromRune_short (h : s.feed.Breaking reason later bytes) (he : s.feed.ended = false)
    (hm : 0 < s.feed.window.offset ∨
      Piece.at? bytes s.feed.window.offset ≠ some (.scalar byteOrderMark))
    (hs : bytes.size < s.feed.window.offset + Feed.lookahead) (k : Nat) :
    Text.fromRune k s.arrive = ⟨(pieces bytes s.feed.window.offset).map Piece.rune,
      brokenMarks reason k s.pos (pieces bytes s.feed.window.offset)⟩ := by
  have hf := h.filled he
  have hended : s.arrive.feed.ended = true := hf.ended.2 hs
  have hover : s.arrive.Over bytes := ⟨Feed.Breaking.over hf.holds hended, hf.ready⟩
  have ho : s.arrive.feed.window.offset = s.feed.window.offset :=
    Window.offset_eq_of_whole hf.whole
  have ha := arrival_breaking h he hm
  have hspan := span_pieces (ho ▸ hover.offset_le)
  have hpos : 0 < Feed.lookahead := by decide
  rw [if_pos hs] at ha
  rw [brokenMarks_short (by omega), fromRune_over hover (ho.symm ▸ ha), ho]
  rfl

/-- A source in front of the failure goes through the pieces and reports it on the way. -/
theorem fromRune_breaking {i : Nat} (h : s.feed.Breaking reason later bytes)
    (he : s.feed.ended = false) (hi : s.feed.window.offset = i)
    (hm : 0 < i ∨ Piece.at? bytes i ≠ some (.scalar byteOrderMark)) (k : Nat) :
    Text.fromRune k s.arrive =
      ⟨(pieces bytes i).map Piece.rune, brokenMarks reason k s.pos (pieces bytes i)⟩ := by
  induction i using pieces.induct bytes generalizing s k with
  | case1 i hn =>
    have hs : bytes.size < i + Feed.lookahead := by
      have hlt : ¬ i < bytes.size := by
        rw [← Piece.at?_isSome_iff, hn]
        simp
      unfold Feed.lookahead
      omega
    rw [fromRune_short h he (hi ▸ hm) (hi ▸ hs) k, hi]
  | case2 i p hp ih =>
    by_cases hs : bytes.size < i + Feed.lookahead
    · rw [fromRune_short h he (hi ▸ hm) (hi ▸ hs) k, hi]
    obtain ⟨hstep, hnext, hended⟩ := step_breaking h he hi hp
    have hwindow : s.arrive.feed.window.piece = some p := (piece_breaking h he hi).trans hp
    have hrune : s.arrive.rune = some p.rune := by
      unfold rune
      rw [hwindow]
      rfl
    obtain ⟨t, hfeed, hpos, hadv⟩ : ∃ t : Source, t.feed = (s.arrive.step p.width).feed ∧
        t.pos = s.pos.after p.rune ∧ s.arrive.advance = t.arrive := by
      refine ⟨{ s.arrive.step p.width with pos := s.pos.after p.rune }, rfl, rfl, ?_⟩
      unfold advance
      rw [hwindow]
      rfl
    rw [← hfeed] at hstep hnext hended
    have hmore : t.feed.ended = false := Bool.eq_false_iff.2 fun hen => hs (hended.1 hen)
    have hspan : Feed.lookahead ≤ span (p :: pieces bytes (i + p.width)) := by
      have hlt := Piece.at?_isSome_iff.1 (Option.isSome_of_eq_some hp)
      rw [← pieces_some hp, span_pieces (Nat.le_of_lt hlt)]
      omega
    have ha := arrival_breaking h he (hi ▸ hm)
    rw [hi, if_neg hs, List.nil_append, arrivalAt, hp] at ha
    rw [Text.fromRune_some hrune, hadv,
      ih hstep hmore hnext (Or.inl (Nat.add_pos_right i p.width_pos)), pieces_some hp,
      brokenMarks_cons hspan, ha, hpos]
    simp

theorem arrival_mark (h : s.feed.Breaking reason later bytes) (he : s.feed.ended = false)
    (hi : s.feed.window.offset = 0) (hm : Piece.at? bytes 0 = some (.scalar byteOrderMark)) :
    s.arrive.arrival =
      if bytes.size < Feed.lookahead then [⟨s.pos, .readFailure reason⟩] else [] := by
  have hproblem : pieceProblem (s.feed.window.whole bytes) = none := by
    have hat : (s.whole bytes).feed.At bytes 0 := ⟨rfl, rfl, hi, rfl⟩
    have ho : (s.feed.window.whole bytes).offset = 0 := (Nat.zero_add _).trans hi
    unfold pieceProblem
    rw [show (s.feed.window.whole bytes).piece = _ from piece_at hat, hm, ho]
    rfl
  rw [arrival_filled h he, hproblem, hi, Nat.zero_add]
  exact List.append_nil _

/-- Where the read was tried at the mark, nothing is read at the rune behind it. -/
theorem fromRune_mark_over {t u : Source} (h : u.feed.Over bytes) (hended : u.feed.ended = true)
    (hi : 0 < u.feed.window.offset) {ds : List Diagnostic}
    (ht : t = { u.arrive with arrival := ds ++ u.arrive.arrival }) (k : Nat) :
    Text.fromRune k t = ⟨(pieces bytes u.feed.window.offset).map Piece.rune,
      ds.map (k, ·) ++ marks k u.pos (pieces bytes u.feed.window.offset)⟩ := by
  have hfill : u.arrive.feed = u.feed := congrArg Prod.fst
    (if_pos hended : u.feed.fill = (u.feed, none))
  have hat : (u.whole bytes).feed.At bytes u.feed.window.offset := ⟨rfl, rfl, rfl, rfl⟩
  have harrival : u.arrive.arrival =
      [] ++ arrivalAt bytes u.arrive.feed.window.offset u.arrive.pos := by
    rw [hfill]
    exact (congrArg Source.arrival (whole_arrive h)).trans (arrival_at hat (Or.inl hi))
  rw [fromRune_arrival u.arrive ds k ht, fromRune_over (over_arrive h) harrival k, hfill]
  rfl

/-- The failure may be behind a byte order mark in front, or be reported before that. -/
theorem fromRune_mark {t u : Source} (h : s.feed.Breaking reason later bytes)
    (he : s.feed.ended = false) (hi : s.feed.window.offset = 0)
    (hm : Piece.at? bytes 0 = some (.scalar byteOrderMark))
    (hu : u = s.arrive.step byteOrderMark.utf8Size)
    (ht : t = { u.arrive with arrival := s.arrive.arrival ++ u.arrive.arrival }) :
    Text.fromRune 0 t = ⟨(pieces bytes byteOrderMark.utf8Size).map Piece.rune,
      brokenMarks reason 0 s.pos (pieces bytes byteOrderMark.utf8Size)⟩ := by
  have hpos : u.pos = s.pos := by rw [hu]; rfl
  obtain ⟨hfeed, ho, hended⟩ := step_breaking h he hi hm
  rw [← show u = s.arrive.step (Piece.scalar byteOrderMark).width from hu] at hfeed ho hended
  rw [Nat.zero_add] at ho hended
  have hoffset : u.feed.window.offset = byteOrderMark.utf8Size := ho
  have hwidth : 0 < byteOrderMark.utf8Size := byteOrderMark.utf8Size_pos
  have ha := arrival_mark h he hi hm
  by_cases hs : bytes.size < Feed.lookahead
  · have hle : byteOrderMark.utf8Size ≤ bytes.size := by
      have hw := width_le_of_at? hm
      rwa [Nat.zero_add] at hw
    have hspan := span_pieces hle
    rw [if_pos hs] at ha
    rw [fromRune_mark_over (hfeed.over (hended.2 hs)) (hended.2 hs) (hoffset ▸ hwidth) ht 0,
      hoffset, hpos, ha, brokenMarks_short (by omega)]
    rfl
  · have htu : t = u.arrive := by
      rw [if_neg hs] at ha
      rw [ht, ha]
      rfl
    have hmore : u.feed.ended = false := Bool.eq_false_iff.2 fun hen => hs (hended.1 hen)
    rw [htu, fromRune_breaking hfeed hmore hoffset (Or.inl hwidth) 0, hpos]

end Source

/-- A text is what the pieces of its bytes say, and the failure. -/
theorem Text.ofReads_breaks {reads : List Read} (h : Breaks reason later reads bytes) :
    ofReads reads = ⟨(body (pieces bytes 0)).map Piece.rune,
      brokenMarks reason 0 .start (body (pieces bytes 0))⟩ := by
  have hstart := Source.breaking_start h
  unfold ofReads Source.ofReads
  generalize hs : (⟨.ofReads reads, .start, [], #[]⟩ : Source) = s
  have hfeed : s.feed.Breaking reason later bytes := hs ▸ hstart
  have he : s.feed.ended = false := by rw [← hs]; rfl
  have hi : s.feed.window.offset = 0 := by rw [← hs]; rfl
  have hpos : s.pos = .start := by rw [← hs]
  have hrune : s.arrive.rune = (Piece.at? bytes 0).map Piece.rune :=
    congrArg (Option.map Piece.rune) (Source.piece_breaking hfeed he hi)
  dsimp only
  by_cases hm : Piece.at? bytes 0 = some (.scalar Source.byteOrderMark)
  · rw [if_pos (hrune.trans (Source.map_rune_eq_mark.2 hm)), pieces_some hm, body, if_pos rfl,
      Source.fromRune_mark hfeed he hi hm rfl rfl, hpos, Nat.zero_add]
    rfl
  · rw [if_neg fun he => hm (Source.map_rune_eq_mark.1 (hrune.symm.trans he)),
      Source.fromRune_breaking hfeed he hi (Or.inr hm), hpos, body_of_not_mark hm]

end FrontEnd
