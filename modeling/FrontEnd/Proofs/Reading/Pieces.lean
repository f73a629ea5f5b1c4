import FrontEnd.Proofs.Reading.Delivery

/-!
# Bytes in pieces

Bytes fall into characters and into bytes that begin none, one behind the other, and a
text is what the pieces say: their runes, and a complaint where one is malformed or is a
byte order mark out of place.  No piece reaches over a byte that begins a character, so in
front of such a byte an input may be cut.
-/

namespace FrontEnd
namespace Utf8

def pieces (bytes : ByteArray) (i : Nat) : List Piece :=
  match _h : Piece.at? bytes i with
  | none => []
  | some p => p :: pieces bytes (i + p.width)
termination_by bytes.size - i
decreasing_by
  have hi := Piece.at?_isSome_iff.1 (Option.isSome_of_eq_some _h)
  have hp := p.width_pos
  omega

variable {bytes rest : ByteArray} {i : Nat}

theorem pieces_none (h : Piece.at? bytes i = none) : pieces bytes i = [] := by
  rw [pieces]
  split
  · rfl
  · next hp => rw [h] at hp; cases hp

theorem pieces_some {p : Piece} (h : Piece.at? bytes i = some p) :
    pieces bytes i = p :: pieces bytes (i + p.width) := by
  rw [pieces]
  split
  · next hn => rw [h] at hn; cases hn
  · next q hq =>
    rw [h] at hq
    cases hq
    rfl

theorem head?_pieces (bytes : ByteArray) (i : Nat) :
    (pieces bytes i).head? = Piece.at? bytes i := by
  cases h : Piece.at? bytes i with
  | none => rw [pieces_none h, List.head?_nil]
  | some p => rw [pieces_some h, List.head?_cons]

def span : List Piece → Nat
  | [] => 0
  | p :: ps => p.width + span ps

@[simp] theorem span_cons (p : Piece) (ps : List Piece) : span (p :: ps) = p.width + span ps :=
  rfl

theorem pieces_split {as bs : List Piece} (hi : i ≤ bytes.size)
    (h : pieces bytes i = as ++ bs) :
    i + span as ≤ bytes.size ∧ pieces bytes (i + span as) = bs := by
  induction as generalizing i with
  | nil => exact ⟨hi, h⟩
  | cons a as ih =>
    have hat : Piece.at? bytes i = some a := by
      rw [← head?_pieces, h]
      rfl
    rw [pieces_some hat] at h
    rw [span_cons, ← Nat.add_assoc]
    exact ih (width_le_of_at? hat) (List.cons.inj h).2

theorem at?_scalar_iff {c : Char} :
    Piece.at? bytes i = some (.scalar c) ↔ bytes.utf8DecodeChar? i = some c := by
  unfold Piece.at?
  constructor
  · intro h
    split at h
    · cases hd : bytes.utf8DecodeChar? i with
      | none => rw [hd] at h; cases h
      | some d => rw [hd] at h; cases h; rfl
    · cases h
  · intro h
    rw [if_pos (ByteArray.lt_size_of_isSome_utf8DecodeChar? (Option.isSome_of_eq_some h)), h]
    rfl

theorem pieces_prepend (pre bytes : ByteArray) (i : Nat) :
    pieces (pre ++ bytes) (pre.size + i) = pieces bytes i := by
  have hat : ∀ i, Piece.at? (pre ++ bytes) (pre.size + i) = Piece.at? bytes i := by
    intro i
    have h := at?_buffer pre bytes .empty i (Or.inr rfl)
    rwa [ByteArray.append_empty] at h
  induction i using pieces.induct bytes with
  | case1 i h => rw [pieces_none h, pieces_none ((hat i).trans h)]
  | case2 i p h ih => rw [pieces_some h, pieces_some ((hat i).trans h), Nat.add_assoc, ih]

/-! ## Where an input may be cut -/

/-- No sequence goes on with the first of the bytes. -/
def Fresh (bytes : ByteArray) : Prop :=
  ∀ h : 0 < bytes.size, bytes[0].IsUTF8FirstByte

theorem fresh_encode (c : Char) (cs : List Char) (rest : ByteArray) :
    Fresh ((c :: cs).utf8Encode ++ rest) := by
  intro h
  have hc := ByteArray.utf8DecodeChar?_append_eq_some
    (List.utf8DecodeChar?_utf8Encode_cons (l := cs) (c := c)) rest
  exact ByteArray.isUTF8FirstByte_of_isSome_utf8DecodeChar? (Option.isSome_of_eq_some hc)

theorem decode_fresh (h : Fresh rest) (hi : i < bytes.size) :
    (bytes ++ rest).utf8DecodeChar? i = bytes.utf8DecodeChar? i := by
  cases hb : bytes.utf8DecodeChar? i with
  | some c => exact ByteArray.utf8DecodeChar?_append_eq_some hb rest
  | none =>
    cases hr : (bytes ++ rest).utf8DecodeChar? i with
    | none => rfl
    | some c =>
      have hc : ¬ i + c.utf8Size ≤ bytes.size := by
        intro hc
        rw [decode_of_append bytes rest i hr hc] at hb
        cases hb
      -- The character would take in the first byte of the rest.
      have hsize := ByteArray.le_size_of_utf8DecodeChar?_eq_some hr
      rw [ByteArray.size_append] at hsize
      have hpos : 0 < rest.size := by omega
      have hj : bytes.size - i < (String.utf8EncodeChar c).length := by
        rw [String.length_utf8EncodeChar]
        omega
      rw [ByteArray.utf8DecodeChar?_eq_utf8DecodeChar?_extract] at hr
      obtain ⟨l, hl⟩ := ByteArray.exists_of_utf8DecodeChar?_eq_some hr
      have hjl : bytes.size - i < ((String.utf8EncodeChar c).toByteArray ++ l).size := by
        rw [ByteArray.size_append, List.size_toByteArray]
        omega
      have hbyte : rest[0] = (String.utf8EncodeChar c)[bytes.size - i] := by
        have hlt : bytes.size - i < ((bytes ++ rest).extract i (bytes ++ rest).size).size :=
          hl ▸ hjl
        have hget : ((bytes ++ rest).extract i (bytes ++ rest).size)[bytes.size - i] = rest[0] := by
          rw [ByteArray.getElem_extract, ByteArray.getElem_append_right (by omega)]
          congr 1
          omega
        rw [← hget]
        simp only [hl]
        rw [ByteArray.getElem_append_left (by rwa [List.size_toByteArray])]
        simp
      have hfirst := h hpos
      rw [hbyte, UInt8.isUTF8FirstByte_getElem_utf8EncodeChar] at hfirst
      omega

/-- In front of a byte that continues nothing an input may be cut. -/
theorem pieces_append (h : Fresh rest) (hi : i ≤ bytes.size) :
    pieces (bytes ++ rest) i = pieces bytes i ++ pieces rest 0 := by
  induction i using pieces.induct bytes with
  | case1 i hn =>
    have hsize : i = bytes.size + 0 := by
      have hlt : ¬ i < bytes.size := by
        rw [← Piece.at?_isSome_iff, hn]
        simp
      omega
    rw [pieces_none hn, hsize, pieces_prepend, List.nil_append]
  | case2 i p hp ih =>
    have hlt : i < bytes.size := Piece.at?_isSome_iff.1 (Option.isSome_of_eq_some hp)
    have hat : Piece.at? (bytes ++ rest) i = some p := by
      rw [← hp]
      unfold Piece.at?
      rw [decode_fresh h hlt, if_pos hlt, if_pos (by rw [ByteArray.size_append]; omega)]
    rw [pieces_some hp, pieces_some hat, ih (width_le_of_at? hp), List.cons_append]

theorem at?_encode_cons (c : Char) (cs : List Char) (rest : ByteArray) :
    Piece.at? ((c :: cs).utf8Encode ++ rest) 0 = some (.scalar c) := by
  have hlt : 0 < ((c :: cs).utf8Encode ++ rest).size := by
    have hc := c.utf8Size_pos
    rw [ByteArray.size_append, List.utf8Encode_cons, ByteArray.size_append,
      List.utf8Encode_singleton, List.size_toByteArray, String.length_utf8EncodeChar]
    omega
  unfold Piece.at?
  rw [if_pos hlt, ByteArray.utf8DecodeChar?_append_eq_some List.utf8DecodeChar?_utf8Encode_cons]
  rfl

theorem pieces_encode_append (cs : List Char) (rest : ByteArray) :
    pieces (cs.utf8Encode ++ rest) 0 = cs.map .scalar ++ pieces rest 0 := by
  induction cs with
  | nil => exact pieces_prepend .empty rest 0
  | cons c cs ih =>
    have hsize : 0 + (Piece.scalar c).width = [c].utf8Encode.size + 0 := by
      rw [List.utf8Encode_singleton, List.size_toByteArray, String.length_utf8EncodeChar]
      simp [Piece.width]
    rw [pieces_some (at?_encode_cons c cs rest), hsize, List.utf8Encode_cons,
      ByteArray.append_assoc, pieces_prepend, ih]
    rfl

theorem pieces_encode (cs : List Char) : pieces cs.utf8Encode 0 = cs.map .scalar := by
  have h := pieces_encode_append cs .empty
  rwa [ByteArray.append_empty, pieces_none (by decide : Piece.at? .empty 0 = none),
    List.append_nil] at h

theorem pieces_string (s : String) : pieces s.toUTF8 0 = s.toList.map .scalar := by
  have hbytes : s.toUTF8 = s.toList.utf8Encode := String.utf8Encode_toList.symm
  rw [hbytes, pieces_encode]

theorem exists_cut {as bs : List Piece} (h : pieces bytes 0 = as ++ bs) :
    ∃ front back, bytes = front ++ back ∧ pieces back 0 = bs := by
  obtain ⟨hj, hbs⟩ := pieces_split (Nat.zero_le _) h
  generalize 0 + span as = j at hj hbs
  have hcut : bytes = bytes.extract 0 j ++ bytes.extract j bytes.size := by
    rw [ByteArray.extract_append_extract, Nat.zero_min, Nat.max_eq_right hj,
      ByteArray.extract_zero_size]
  refine ⟨_, _, hcut, ?_⟩
  have hsize : (bytes.extract 0 j).size = j := by
    rw [ByteArray.size_extract]
    omega
  have hpre := pieces_prepend (bytes.extract 0 j) (bytes.extract j bytes.size) 0
  rw [← hcut, hsize] at hpre
  exact hpre.symm.trans hbs

/-- Pieces that are characters are these characters encoded. -/
theorem exists_encode (cs : List Char) {bs : List Piece}
    (h : pieces bytes 0 = cs.map .scalar ++ bs) :
    ∃ back, bytes = cs.utf8Encode ++ back ∧ pieces back 0 = bs := by
  induction cs generalizing bytes with
  | nil => exact ⟨bytes, ByteArray.empty_append.symm, h⟩
  | cons c cs ih =>
    have hat : Piece.at? bytes 0 = some (.scalar c) := by
      rw [← head?_pieces, h]
      rfl
    obtain ⟨back, hback⟩ := ByteArray.exists_of_utf8DecodeChar?_eq_some (at?_scalar_iff.1 hat)
    rw [← List.utf8Encode_singleton] at hback
    rw [hback, pieces_encode_append] at h
    obtain ⟨rest, hrest, hbs⟩ := ih (List.cons.inj h).2
    refine ⟨rest, ?_, hbs⟩
    rw [hback, hrest, ← ByteArray.append_assoc, ← List.utf8Encode_append]
    rfl

/-! ## Texts -/

namespace Piece

def problem? : Piece → Option Problem
  | malformed => some .malformedEncoding
  | scalar c => if c = Source.byteOrderMark then some .misplacedByteOrderMark else none

def mark (p : Position) (q : Piece) : List Diagnostic :=
  q.problem?.toList.map (Diagnostic.mk p)

end Piece

/-- The reports of the problems of pieces, the first of which has index `k` and stands at
`p`. -/
def marks (k : Nat) (p : Position) : List Piece → List (Nat × Diagnostic)
  | [] => []
  | q :: qs => (q.mark p).map (k, ·) ++ marks (k + 1) (p.after q.rune) qs

theorem marks_append (k : Nat) (p : Position) (as bs : List Piece) :
    marks k p (as ++ bs) =
      marks k p as ++ marks (k + as.length) (p.afterAll (as.map Piece.rune)) bs := by
  induction as generalizing k p with
  | nil => rfl
  | cons a as ih =>
    have hk : k + (as.length + 1) = k + 1 + as.length := by omega
    rw [List.cons_append, marks, marks, ih, List.length_cons, hk, List.append_assoc]
    rfl

theorem marks_bounds (k : Nat) (p : Position) (ps : List Piece) :
    ∀ r ∈ marks k p ps, k ≤ r.1 ∧ r.1 < k + ps.length := by
  induction ps generalizing k p with
  | nil => exact fun r hr => absurd hr List.not_mem_nil
  | cons q qs ih =>
    intro r hr
    rw [List.length_cons]
    rcases List.mem_append.1 hr with hr | hr
    · obtain ⟨d, -, rfl⟩ := List.mem_map.1 hr
      simp
    · have h := ih _ _ r hr
      omega

/-- The pieces of an input less a byte order mark in front. -/
def body : List Piece → List Piece
  | [] => []
  | q :: qs => if q = .scalar Source.byteOrderMark then qs else q :: qs

theorem body_of_not_mark {bytes : ByteArray}
    (h : Piece.at? bytes 0 ≠ some (.scalar Source.byteOrderMark)) :
    body (pieces bytes 0) = pieces bytes 0 := by
  have hhead := head?_pieces bytes 0
  cases hp : pieces bytes 0 with
  | nil => rfl
  | cons q qs =>
    rw [hp, List.head?_cons] at hhead
    exact if_neg fun hq => h (hhead.symm.trans (congrArg some hq))

theorem body_append {q : Piece} (hq : q ≠ .scalar Source.byteOrderMark) (ps qs : List Piece) :
    body (ps ++ q :: qs) = body ps ++ q :: qs := by
  cases ps with
  | nil => exact if_neg hq
  | cons p ps =>
    rw [List.cons_append, body, body]
    split <;> rfl

theorem exists_of_body {ps qs xs : List Piece} {q : Piece} (h : body xs = ps ++ q :: qs) :
    ∃ front, xs = front ++ q :: qs ∧ body front = ps := by
  cases xs with
  | nil => simp [body] at h
  | cons x xs =>
    rw [body] at h
    by_cases hx : x = .scalar Source.byteOrderMark
    · rw [if_pos hx] at h
      exact ⟨x :: ps, by rw [h, List.cons_append], by rw [body, if_pos hx]⟩
    · rw [if_neg hx] at h
      refine ⟨ps, h, ?_⟩
      cases ps with
      | nil => rfl
      | cons p ps =>
        rw [← (List.cons.inj h).1, body, if_neg hx]

/-- Runes none of which stands for a malformed byte are characters of the input. -/
theorem eq_scalars {ps : List Piece} (h : ∀ c ∈ ps.map Piece.rune, c ≠ replacement) :
    ps = (ps.map Piece.rune).map .scalar := by
  induction ps with
  | nil => rfl
  | cons p ps ih =>
    obtain ⟨hp, hps⟩ := List.forall_mem_cons.1 h
    cases p with
    | scalar c => exact congrArg (Piece.scalar c :: ·) (ih hps)
    | malformed => exact absurd rfl hp

end Utf8

open Utf8

namespace Text

def ofPieces (ps : List Piece) : Text :=
  ⟨ps.map Piece.rune, marks 0 .start ps⟩

end Text

structure Feed.At (bytes : ByteArray) (i : Nat) (f : Feed) : Prop where
  bytes : f.window.bytes = bytes
  base : f.window.base = 0
  head : f.window.head = i
  ended : f.ended = true

namespace Source

variable {bytes : ByteArray} {i : Nat} {s : Source}

theorem piece_at (h : s.feed.At bytes i) : s.feed.window.piece = Piece.at? bytes i := by
  unfold Window.piece
  rw [h.bytes, h.head]

theorem rune_at (h : s.feed.At bytes i) : s.rune = (Piece.at? bytes i).map Piece.rune := by
  unfold Source.rune
  rw [piece_at h]

/-- Where nothing is left to be read, arriving only says what is wrong with the piece. -/
theorem arrive_at (h : s.feed.At bytes i) : s.arrive.feed = s.feed ∧
    s.arrive.arrival = (pieceProblem s.feed.window).toList.map (Diagnostic.mk s.pos) := by
  have hf : s.feed.fill = (s.feed, none) := if_pos h.ended
  unfold Source.arrive
  rw [hf]
  exact ⟨rfl, rfl⟩

theorem pieceProblem_at {w : Window} {p : Piece} (hp : w.piece = some p)
    (hw : 0 < w.offset ∨ p ≠ .scalar byteOrderMark) : pieceProblem w = p.problem? := by
  unfold pieceProblem
  rw [hp]
  cases p with
  | malformed => rfl
  | scalar c =>
    by_cases hc : c = byteOrderMark
    · have hpos := hw.resolve_right fun hne => hne (congrArg Piece.scalar hc)
      simp [Piece.problem?, hc, hpos]
    · simp [Piece.problem?, hc]

def arrivalAt (bytes : ByteArray) (i : Nat) (p : Position) : List Diagnostic :=
  (Piece.at? bytes i).toList.flatMap (Piece.mark p)

theorem arrival_at (h : s.feed.At bytes i)
    (hi : 0 < i ∨ Piece.at? bytes i ≠ some (.scalar byteOrderMark)) :
    s.arrive.arrival = arrivalAt bytes i s.pos := by
  have ho : s.feed.window.offset = i := by
    unfold Window.offset
    rw [h.base, h.head, Nat.zero_add]
  have hp := piece_at h
  unfold arrivalAt
  rw [(arrive_at h).2]
  cases hq : Piece.at? bytes i with
  | none =>
    unfold pieceProblem
    rw [hp, hq]
    rfl
  | some q =>
    rw [hq] at hp
    rw [pieceProblem_at hp (ho ▸ hi.imp_right fun hne he => hne (he ▸ hq))]
    simp [Piece.mark]

theorem at_arrive (h : s.feed.At bytes i) : s.arrive.feed.At bytes i :=
  (arrive_at h).1 ▸ h

theorem at_step (h : s.feed.At bytes i) (n : Nat) : (s.step n).feed.At bytes (i + n) :=
  ⟨h.bytes, h.base, congrArg (· + n) h.head, h.ended⟩

theorem feed_advance {p : Piece} (h : s.feed.At bytes i) (hp : Piece.at? bytes i = some p) :
    s.advance.feed = (s.step p.width).feed := by
  unfold advance
  rw [piece_at h, hp]
  exact (arrive_at (s := { s.step p.width with pos := s.pos.after p.rune }) (at_step h p.width)).1

theorem at_advance {p : Piece} (h : s.feed.At bytes i) (hp : Piece.at? bytes i = some p) :
    s.advance.feed.At bytes (i + p.width) :=
  feed_advance h hp ▸ at_step h p.width

theorem fromRune_at (h : s.feed.At bytes i) (ha : s.arrival = arrivalAt bytes i s.pos) (k : Nat) :
    Text.fromRune k s = ⟨(pieces bytes i).map Piece.rune, marks k s.pos (pieces bytes i)⟩ := by
  induction i using pieces.induct bytes generalizing s k with
  | case1 i hn =>
    have hr : s.rune = none := by rw [rune_at h, hn]; rfl
    rw [Text.fromRune_none hr, pieces_none hn, ha, arrivalAt, hn]
    rfl
  | case2 i p hp ih =>
    have hr : s.rune = some p.rune := by rw [rune_at h, hp]; rfl
    have hadv : s.advance = arrive { s.step p.width with pos := s.pos.after p.rune } := by
      unfold advance
      rw [piece_at h, hp]
    have hstep := at_step h p.width
    have harr : s.advance.arrival = arrivalAt bytes (i + p.width) s.advance.pos := by
      rw [pos_advance hr, hadv]
      have hpos : 0 < i + p.width := Nat.add_pos_right i p.width_pos
      exact arrival_at (s := { s.step p.width with pos := s.pos.after p.rune }) hstep (Or.inl hpos)
    rw [Text.fromRune_some hr, ih (at_advance h hp) harr, pieces_some hp, ha, arrivalAt, hp,
      pos_advance hr]
    simp [marks]

theorem map_rune_eq_mark {o : Option Piece} :
    o.map Piece.rune = some byteOrderMark ↔ o = some (.scalar byteOrderMark) := by
  constructor
  · intro h
    obtain ⟨p, rfl, hc⟩ := Option.map_eq_some_iff.1 h
    cases p with
    | scalar c => exact congrArg (fun c => some (Piece.scalar c)) hc
    | malformed => cases hc
  · rintro rfl
    rfl

theorem fromRune_ofBytes (bytes : ByteArray) :
    Text.fromRune 0 (.ofBytes bytes) = .ofPieces (body (pieces bytes 0)) := by
  generalize hs : (⟨⟨⟨bytes, 0, 0, none⟩, [], true⟩, .start, [], #[]⟩ : Source) = s
  have hat : s.feed.At bytes 0 := by
    rw [← hs]
    exact ⟨rfl, rfl, rfl, rfl⟩
  have hpos : s.pos = .start := by rw [← hs]
  have hr := rune_at (at_arrive hat)
  unfold ofBytes
  rw [hs]
  dsimp only
  by_cases hm : Piece.at? bytes 0 = some (.scalar byteOrderMark)
  · have hnone : s.arrive.arrival = [] := by
      have ho : s.feed.window.offset = 0 := by rw [← hs]; rfl
      rw [(arrive_at hat).2]
      unfold pieceProblem
      rw [piece_at hat, hm]
      simp [ho]
    have hstep := at_step (at_arrive hat) byteOrderMark.utf8Size
    have harr := arrival_at hstep (Or.inl (Nat.add_pos_right 0 byteOrderMark.utf8Size_pos))
    have hfrom := fromRune_at (s := { (s.arrive.step byteOrderMark.utf8Size).arrive with
      arrival := s.arrive.arrival ++ (s.arrive.step byteOrderMark.utf8Size).arrive.arrival })
      (at_arrive hstep) (by rw [hnone]; exact harr) 0
    have hfirst : s.arrive.rune = some byteOrderMark := by rw [hr, hm]; rfl
    rw [if_pos hfirst, pieces_some hm, body, if_pos rfl]
    exact hfrom.trans (congrArg (fun p => Text.mk _ (marks 0 p _)) hpos)
  · have hne : s.arrive.rune ≠ some byteOrderMark := by
      rw [hr]
      exact fun he => hm (map_rune_eq_mark.1 he)
    rw [if_neg hne, fromRune_at (at_arrive hat) (arrival_at hat (Or.inr hm)),
      body_of_not_mark hm]
    exact congrArg (fun p => Text.mk _ (marks 0 p _)) hpos

end Source

/-- A text is what the pieces of its bytes say, however these arrive. -/
theorem Text.ofReads_eq_ofPieces {reads : List Read} {bytes : ByteArray}
    (h : Delivers reads bytes) : ofReads reads = ofPieces (body (pieces bytes 0)) := by
  rw [ofReads_eq h, Source.fromRune_ofBytes]

theorem Delivers.single (bytes : ByteArray) : Delivers [.bytes bytes] bytes := by
  by_cases hb : bytes.size = 0
  · rw [ByteArray.size_eq_zero_iff.1 hb]
    exact .ended []
  · have h : Delivers [.bytes bytes] (bytes ++ .empty) := .chunk (Nat.pos_of_ne_zero hb) .nothing
    rwa [ByteArray.append_empty] at h

/-- A text that is encoded and read again has the runes it was made of, less a byte order
mark in front. -/
theorem Text.runes_ofReads {reads : List Read} {text : String} (h : Delivers reads text.toUTF8) :
    (ofReads reads).runes =
      if text.toList.head? = some Source.byteOrderMark then text.toList.tail else text.toList := by
  have hmap : ∀ cs : List Char, (cs.map Piece.scalar).map Piece.rune = cs := by
    intro cs
    rw [List.map_map]
    exact List.map_id cs
  rw [ofReads_eq_ofPieces h, pieces_string]
  show (body _).map Piece.rune = _
  cases text.toList with
  | nil => rfl
  | cons c cs =>
    rw [List.map_cons, body]
    by_cases hc : c = Source.byteOrderMark
    · rw [if_pos (congrArg Piece.scalar hc), List.head?_cons, if_pos (congrArg some hc)]
      exact hmap cs
    · have hp : Piece.scalar c ≠ .scalar Source.byteOrderMark := fun h => hc (Piece.scalar.inj h)
      rw [if_neg hp, List.head?_cons, if_neg fun h => hc (Option.some.inj h)]
      exact hmap (c :: cs)

theorem Text.runes_append {front back : ByteArray} {reads : List Read} {c : Char} {cs : List Char}
    (hc : c ≠ Source.byteOrderMark)
    (h : Delivers reads (front ++ ((c :: cs).utf8Encode ++ back))) :
    (ofReads reads).runes =
      (ofReads [.bytes front]).runes ++ (c :: cs ++ (pieces back 0).map Piece.rune) := by
  have hne : Piece.scalar c ≠ .scalar Source.byteOrderMark := fun h => hc (Piece.scalar.inj h)
  rw [ofReads_eq_ofPieces h, ofReads_eq_ofPieces (.single front),
    pieces_append (fresh_encode c cs back) (Nat.zero_le _), pieces_encode_append]
  show (body (_ ++ Piece.scalar c :: _)).map Piece.rune = (body _).map Piece.rune ++ _
  rw [body_append hne]
  simp [Function.comp_def, Piece.rune]

/-- Where a word stands in a text, its characters stand in the input. -/
theorem Text.exists_bytes {bytes : ByteArray} {reads : List Read} {before rest : List Char}
    {c : Char} {cs : List Char} (h : Delivers reads bytes) (hcs : ∀ d ∈ c :: cs, d ≠ replacement)
    (hr : (ofReads reads).runes = before ++ (c :: cs ++ rest)) :
    ∃ front back, bytes = front ++ ((c :: cs).utf8Encode ++ back) ∧
      (ofReads [.bytes front]).runes = before := by
  rw [ofReads_eq_ofPieces h] at hr
  obtain ⟨as, bs, hbody, has, hbs⟩ := List.map_eq_append_iff.1 hr
  obtain ⟨ws, rs, rfl, hws, -⟩ := List.map_eq_append_iff.1 hbs
  have hscalars : ws = (c :: cs).map .scalar := by
    rw [← hws]
    exact eq_scalars (hws ▸ hcs)
  subst hscalars
  obtain ⟨ps, hps, hfront⟩ := exists_of_body hbody
  obtain ⟨front, back, rfl, hback⟩ := exists_cut hps
  obtain ⟨rest, rfl, -⟩ := exists_encode (c :: cs) hback
  refine ⟨front, rest, rfl, ?_⟩
  rw [pieces_append (fresh_encode c cs rest) (Nat.zero_le _), hback] at hps
  rw [ofReads_eq_ofPieces (.single front)]
  show (body _).map Piece.rune = before
  rw [List.append_cancel_right hps, hfront, has]

end FrontEnd
