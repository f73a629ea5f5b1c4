import FrontEnd.Proofs.Reading.Pieces
import FrontEnd.Proofs.Reading.Chunks

/-!
# What a segment says of the runes

A source reads malformed bytes one by one, and the text of a segment has one replacement
for each broken sequence.  So a segment is the runes that were read less some of the
replacements, and it is all of them just when no sequence of two bytes or three broke off.
-/

namespace FrontEnd
namespace Utf8

variable {bytes : ByteArray} {i : Nat}

/-! ## Broken sequences -/

theorem isTail_iff {b : UInt8} : isTail b = true ↔ 0x80 ≤ b.toNat ∧ b.toNat ≤ 0xBF := by
  simp [isTail, UInt8.le_iff_toNat_le]

theorem isTail_of_isSecond {a b : UInt8} (h : isSecond a b = true) : isTail b = true := by
  rw [isTail_iff]
  unfold isSecond at h
  repeat' split at h
  all_goals
    simp only [Bool.and_eq_true, decide_eq_true_eq, isTail_iff, UInt8.le_iff_toNat_le,
      UInt8.reduceToNat] at h
    omega

theorem not_first_of_isTail {b : UInt8} (h : isTail b = true) : ¬ b.IsUTF8FirstByte := by
  have hall : ∀ n : Fin 256, isTail (.ofNat n) = true → ¬ (UInt8.ofNat n).IsUTF8FirstByte := by
    decide +kernel
  have hb := hall ⟨b.toNat, b.toNat_lt⟩
  rw [UInt8.ofNat_toNat] at hb
  exact hb h

theorem at?_malformed_iff :
    Piece.at? bytes i = some .malformed ↔ i < bytes.size ∧ bytes.utf8DecodeChar? i = none := by
  unfold Piece.at?
  by_cases hi : i < bytes.size
  · rw [if_pos hi]
    cases bytes.utf8DecodeChar? i <;> simp [hi]
  · rw [if_neg hi]
    simp [hi]

theorem at?_tail {b : UInt8} (hb : bytes[i]? = some b) (h : isTail b = true) :
    Piece.at? bytes i = some .malformed := by
  obtain ⟨hi, rfl⟩ := getElem?_eq_some_iff.1 hb
  refine at?_malformed_iff.2 ⟨hi, ?_⟩
  cases hd : bytes.utf8DecodeChar? i with
  | none => rfl
  | some c =>
    have hfirst := ByteArray.isUTF8FirstByte_of_isSome_utf8DecodeChar? (Option.isSome_of_eq_some hd)
    exact absurd hfirst (not_first_of_isTail h)

/-- The bytes of a broken sequence behind its first one continue it. -/
theorem tail_of_lt_brokenWidth {j : Nat} (hj : j + 1 < brokenWidth bytes i) :
    ∃ b, bytes[i + 1 + j]? = some b ∧ isTail b = true := by
  unfold brokenWidth at hj
  split at hj
  · next a b ha hb =>
    by_cases hs : isSecond a b = true
    · rw [if_pos hs] at hj
      cases j with
      | zero => exact ⟨b, hb, isTail_of_isSecond hs⟩
      | succ j =>
        by_cases hf : (0xF0 ≤ a && bytes[i + 2]?.any isTail) = true
        · rw [if_pos hf] at hj
          obtain rfl : j = 0 := by omega
          cases hc : bytes[i + 2]? with
          | none => simp [hc] at hf
          | some c =>
            rw [hc, Option.any_some, Bool.and_eq_true] at hf
            exact ⟨c, rfl, hf.2⟩
        · rw [if_neg hf] at hj
          omega
    · rw [if_neg hs] at hj
      omega
  · omega

theorem pieces_tails {k : Nat}
    (h : ∀ j < k, ∃ b, bytes[i + j]? = some b ∧ isTail b = true) :
    pieces bytes i = List.replicate k .malformed ++ pieces bytes (i + k) := by
  induction k generalizing i with
  | zero => rfl
  | succ k ih =>
    obtain ⟨b, hb, ht⟩ := h 0 (Nat.succ_pos k)
    have hrest : pieces bytes (i + 1) = List.replicate k .malformed ++ pieces bytes (i + 1 + k) :=
      ih fun j hj => by
        have hn := h (j + 1) (Nat.succ_lt_succ hj)
        rwa [show i + (j + 1) = i + 1 + j by omega] at hn
    rw [Nat.add_zero] at hb
    rw [pieces_some (at?_tail hb ht), List.replicate_succ, List.cons_append,
      show i + (k + 1) = i + 1 + k by omega, ← hrest]
    rfl

theorem pieces_broken (h : Piece.at? bytes i = some .malformed) :
    pieces bytes i = List.replicate (brokenWidth bytes i) .malformed ++
      pieces bytes (i + brokenWidth bytes i) := by
  obtain ⟨k, hk⟩ := Nat.exists_eq_add_one_of_ne_zero (Nat.ne_of_gt (brokenWidth_pos bytes i))
  have htails : pieces bytes (i + 1) = List.replicate k .malformed ++ pieces bytes (i + 1 + k) :=
    pieces_tails fun j hj => tail_of_lt_brokenWidth (by omega)
  rw [pieces_some h, hk, List.replicate_succ, List.cons_append,
    show i + (k + 1) = i + 1 + k by omega, ← htails]
  rfl

/-! ## The text of some bytes -/

theorem lossy_none (h : Piece.at? bytes i = none) : lossy bytes i = [] := by
  have hi : ¬ i < bytes.size := by
    rw [← Piece.at?_isSome_iff, h]
    simp
  rw [lossy, if_neg hi]

theorem lossy_scalar {c : Char} (h : Piece.at? bytes i = some (.scalar c)) :
    lossy bytes i = c :: lossy bytes (i + c.utf8Size) := by
  have hi := Piece.at?_isSome_iff.1 (Option.isSome_of_eq_some h)
  rw [lossy, if_pos hi, at?_scalar_iff.1 h]

theorem lossy_malformed (h : Piece.at? bytes i = some .malformed) :
    lossy bytes i = replacement :: lossy bytes (i + brokenWidth bytes i) := by
  obtain ⟨hi, hd⟩ := at?_malformed_iff.1 h
  rw [lossy, if_pos hi, hd]

theorem lossy_sublist (bytes : ByteArray) (i : Nat) :
    (lossy bytes i).Sublist ((pieces bytes i).map Piece.rune) := by
  induction i using lossy.induct bytes with
  | case1 i hi c hc ih =>
    have hp := at?_scalar_iff.2 hc
    rw [lossy_scalar hp, pieces_some hp]
    exact ih.cons_cons c
  | case2 i hi hn ih =>
    have hp := at?_malformed_iff.2 ⟨hi, hn⟩
    obtain ⟨k, hk⟩ := Nat.exists_eq_add_one_of_ne_zero (Nat.ne_of_gt (brokenWidth_pos bytes i))
    rw [lossy_malformed hp, pieces_broken hp]
    rw [hk] at ih ⊢
    rw [List.map_append, List.replicate_succ, List.map_cons, List.cons_append]
    exact (ih.trans (List.sublist_append_right _ _)).cons_cons _
  | case3 i hi =>
    rw [lossy, if_neg hi]
    exact List.nil_sublist _

/-- No malformed byte of the pieces from index `i` on goes on a sequence that broke off. -/
def Separate (bytes : ByteArray) (i : Nat) (ps : List Piece) : Prop :=
  ∀ as bs, ps = as ++ .malformed :: bs → brokenWidth bytes (i + span as) = 1

theorem separate_cons {p : Piece} {ps : List Piece} : Separate bytes i (p :: ps) ↔
    (p = .malformed → brokenWidth bytes i = 1) ∧ Separate bytes (i + p.width) ps := by
  constructor
  · intro h
    refine ⟨fun hp => h [] ps (congrArg (· :: ps) hp), fun as bs hps => ?_⟩
    have hb := h (p :: as) bs (congrArg (p :: ·) hps)
    rwa [span_cons, ← Nat.add_assoc] at hb
  · rintro ⟨hp, h⟩ as bs hps
    cases as with
    | nil => exact hp (List.cons.inj hps).1
    | cons a as =>
      obtain ⟨rfl, hrest⟩ := List.cons.inj hps
      rw [span_cons, ← Nat.add_assoc]
      exact h as bs hrest

/-- A text is all of the runes just when each malformed byte is by itself. -/
theorem lossy_eq_iff (bytes : ByteArray) (i : Nat) :
    lossy bytes i = (pieces bytes i).map Piece.rune ↔ Separate bytes i (pieces bytes i) := by
  induction i using lossy.induct bytes with
  | case1 i hi c hc ih =>
    have hp := at?_scalar_iff.2 hc
    have hwidth : (Piece.scalar c).width = c.utf8Size := rfl
    rw [lossy_scalar hp, pieces_some hp, separate_cons, List.map_cons, hwidth, ← ih]
    simp [Piece.rune]
  | case2 i hi hn ih =>
    have hp := at?_malformed_iff.2 ⟨hi, hn⟩
    by_cases hk : brokenWidth bytes i = 1
    · have hwidth : Piece.malformed.width = 1 := rfl
      rw [hk] at ih
      rw [lossy_malformed hp, pieces_some hp, separate_cons, List.map_cons, hwidth, hk, ← ih]
      simp [Piece.rune]
    · constructor
      · intro h
        have hlen := congrArg List.length h
        have hle := (lossy_sublist bytes (i + brokenWidth bytes i)).length_le
        have hpos := brokenWidth_pos bytes i
        rw [lossy_malformed hp, pieces_broken hp] at hlen
        simp only [List.length_cons, List.length_map, List.length_append, List.length_replicate]
          at hlen hle
        omega
      · intro h
        exact absurd (h [] _ (pieces_some hp)) hk
  | case3 i hi =>
    have hn : Piece.at? bytes i = none := if_neg hi
    rw [lossy_none hn, pieces_none hn]
    simp [Separate]

/-- What is cut off between two pieces does not change those in front. -/
theorem pieces_front {front back : ByteArray} {as bs : List Piece}
    (h : pieces (front ++ back) i = as ++ bs) (hi : i + span as = front.size) :
    pieces front i = as := by
  induction as generalizing i with
  | nil =>
    have hn : ¬ i < front.size := by
      rw [← hi]
      exact Nat.lt_irrefl i
    exact pieces_none (if_neg hn)
  | cons a as ih =>
    have hat : Piece.at? (front ++ back) i = some a := by
      rw [← head?_pieces, h]
      rfl
    rw [span_cons] at hi
    have hfront : Piece.at? front i = some a := by
      cases a with
      | scalar c =>
        have hle : i + c.utf8Size ≤ front.size := by
          rw [← hi, ← Nat.add_assoc]
          exact Nat.le_add_right _ _
        exact at?_scalar_iff.2 (decode_of_append front back i (at?_scalar_iff.1 hat) hle)
      | malformed =>
        have hpos := Piece.malformed.width_pos
        refine at?_malformed_iff.2 ⟨by omega, ?_⟩
        cases hd : front.utf8DecodeChar? i with
        | none => rfl
        | some c =>
          have hwhole := ByteArray.utf8DecodeChar?_append_eq_some hd back
          rw [(at?_malformed_iff.1 hat).2] at hwhole
          cases hwhole
    rw [pieces_some hat] at h
    rw [pieces_some hfront, ih (List.cons.inj h).2 (by omega)]

/-- Some of the pieces are those of the bytes they take. -/
theorem pieces_extract {as bs : List Piece} (hi : i ≤ bytes.size)
    (h : pieces bytes i = as ++ bs) : pieces (bytes.extract i (i + span as)) 0 = as := by
  have hle := (pieces_split hi h).1
  have hfront : (bytes.extract 0 i).size = i := by
    rw [ByteArray.size_extract]
    omega
  have hsize : (bytes.extract i (i + span as)).size = span as := by
    rw [ByteArray.size_extract]
    omega
  have hbytes : bytes = bytes.extract 0 i ++ (bytes.extract i (i + span as) ++
      bytes.extract (i + span as) bytes.size) := by
    rw [← ByteArray.extract_eq_extract_append_extract _ (Nat.le_add_right i _) hle,
      ← ByteArray.extract_eq_extract_append_extract i (Nat.zero_le i) hi,
      ByteArray.extract_zero_size]
  have hpre := pieces_prepend (bytes.extract 0 i) (bytes.extract i (i + span as) ++
    bytes.extract (i + span as) bytes.size) 0
  rw [← hbytes, hfront, Nat.add_zero, h] at hpre
  exact pieces_front hpre.symm ((Nat.zero_add _).trans hsize.symm)

end Utf8

open Utf8

namespace Source

/-! ## What was read -/

def run (s : Source) (os : List Operation) : Source :=
  os.foldl (fun s o => (s.operate o).2) s

theorem take_some {s : Source} {c : Char} (h : s.rune = some c) (n : Nat) :
    s.take (n + 1) = (c :: (s.advance.take n).1, (s.advance.take n).2) := by
  rw [take, h]

theorem take_none {s : Source} (h : s.rune = none) (n : Nat) : s.take n = ([], s) := by
  cases n with
  | zero => rfl
  | succ n => rw [take, h]

variable {bytes : ByteArray} {i : Nat} {s : Source}

theorem Over.run (h : s.Over bytes) (os : List Operation) : (s.run os).Over bytes := by
  induction os generalizing s with
  | nil => exact h
  | cons o os ih => exact ih (h.operate o).1

theorem Over.advanceBy (h : s.Over bytes) (n : Nat) : (s.advanceBy n).Over bytes ∧
    (s.advanceBy n).whole bytes = (s.whole bytes).advanceBy n := by
  induction n generalizing s with
  | zero => exact ⟨h, rfl⟩
  | succ n ih =>
    show (s.advance.advanceBy n).Over bytes ∧ _ = (s.whole bytes).advance.advanceBy n
    rw [← h.whole_advance]
    exact ih h.advance

theorem Over.take (h : s.Over bytes) (n : Nat) : ((s.whole bytes).take n).1 = (s.take n).1 := by
  induction n generalizing s with
  | zero => rfl
  | succ n ih =>
    cases hr : s.rune with
    | none => rw [take_none hr, take_none (h.rune_whole.trans hr)]
    | some c =>
      rw [take_some hr, take_some (h.rune_whole.trans hr), ← h.whole_advance, ih h.advance]

/-- Some advances over bytes that are all there pass the next pieces. -/
theorem advanceBy_at (h : s.feed.At bytes i) (n : Nat) :
    ∃ as bs, pieces bytes i = as ++ bs ∧ (s.take n).1 = as.map Piece.rune ∧
      (s.advanceBy n).feed.At bytes (i + span as) ∧
      (s.advanceBy n).feed.window.mark = s.feed.window.mark := by
  induction n generalizing s i with
  | zero => exact ⟨[], _, rfl, rfl, h, rfl⟩
  | succ n ih =>
    cases hp : Piece.at? bytes i with
    | none =>
      have hr : s.rune = none := by rw [rune_at h, hp]; rfl
      rw [take_none hr, advanceBy_none hr]
      exact ⟨[], _, rfl, rfl, h, rfl⟩
    | some p =>
      have hr : s.rune = some p.rune := by rw [rune_at h, hp]; rfl
      have hfeed := feed_advance h hp
      obtain ⟨as, bs, hps, htake, hat, hmark⟩ := ih (at_advance h hp)
      refine ⟨p :: as, bs, ?_, ?_, ?_, ?_⟩
      · rw [pieces_some hp, hps, List.cons_append]
      · rw [take_some hr, htake, List.map_cons]
      · rw [span_cons, ← Nat.add_assoc]
        exact hat
      · exact hmark.trans (congrArg (fun f => f.window.mark) hfeed)

theorem Over.offset_le (h : s.Over bytes) : s.feed.window.offset ≤ bytes.size := by
  obtain ⟨rest, hw, -⟩ := h.feed
  have hsize := hw.size_eq
  omega

/-- What is read from a mark on, and the segment from there, whatever was done before: the
runes are the pieces of the bytes that were passed, and the segment is the text of these
bytes as a whole.  The two are the same just when no malformed byte goes on a sequence that
broke off. -/
theorem segment_reads {reads : List Read} (h : Delivers reads bytes) (os : List Operation)
    (n : Nat) :
    let s := ((ofReads reads).run os).mark
    let t := s.advanceBy n
    let passed := bytes.extract s.feed.window.offset t.feed.window.offset
    (s.take n).1 = (pieces passed 0).map Piece.rune ∧
      t.segment.toList = lossy passed 0 ∧ t.segment.toList.Sublist (s.take n).1 ∧
      (t.segment.toList = (s.take n).1 ↔ Separate passed 0 (pieces passed 0)) := by
  intro s t passed
  have ho : s.Over bytes := ((ofReads_over h).1.run os).mark
  obtain ⟨hto, hwhole⟩ := ho.advanceBy n
  have hat : (s.whole bytes).feed.At bytes s.feed.window.offset := ⟨rfl, rfl, rfl, rfl⟩
  obtain ⟨as, bs, hps, htake, hend, hmark⟩ := advanceBy_at hat n
  rw [ho.take] at htake
  rw [← hwhole] at hend hmark
  have hlast : t.feed.window.offset = s.feed.window.offset + span as := hend.head
  have hpassed : passed = bytes.extract s.feed.window.offset (s.feed.window.offset + span as) :=
    congrArg (bytes.extract s.feed.window.offset) hlast
  have hrunes : (s.take n).1 = (pieces passed 0).map Piece.rune := by
    rw [hpassed, pieces_extract ho.offset_le hps, htake]
  have htext : t.segment.toList = lossy passed 0 := by
    have hstart : (t.whole bytes).feed.window.mark = some s.feed.window.offset := hmark
    have hsegment := congrArg String.toList hto.segment_whole
    unfold segment Window.segment at hsegment
    rw [hstart, Option.getD_some, hend.bytes, hend.head, ← hpassed, String.toList_ofList]
      at hsegment
    exact hsegment.symm
  refine ⟨hrunes, htext, ?_, ?_⟩
  · rw [hrunes, htext]
    exact lossy_sublist _ 0
  · rw [hrunes, htext]
    exact lossy_eq_iff _ 0

/-- A sequence of three bytes that breaks off after two is two runes and one replacement. -/
theorem segment_reads_truncated :
    let s := (ofReads [.bytes ⟨#[0xE0, 0xA0, 0x20]⟩]).mark
    let passed := ByteArray.extract ⟨#[0xE0, 0xA0, 0x20]⟩ 0 2
    (s.take 2).1 = [replacement, replacement] ∧
      (s.advanceBy 2).segment.toList = [replacement] ∧ ¬ Separate passed 0 (pieces passed 0) := by
  obtain ⟨-, -, -, hiff⟩ := segment_reads (.single ⟨#[0xE0, 0xA0, 0x20]⟩) [] 2
  refine ⟨by decide +kernel, by decide +kernel, fun h => ?_⟩
  have htext := hiff.2 h
  revert htext
  decide +kernel

/-- So a segment is not always the runes that were read. -/
theorem segment_ne_runes : ¬ ∀ reads bytes os n, Delivers reads bytes →
    let s := ((ofReads reads).run os).mark
    (s.advanceBy n).segment = String.ofList (s.take n).1 := by
  intro h
  have htext := h [.bytes ⟨#[0xE0, 0xA0, 0x20]⟩] _ [] 2 (.single _)
  revert htext
  decide +kernel

end Source
end FrontEnd
