import FrontEnd.Proofs.Reading.Pieces
import Mathlib.Data.List.Induction

/-!
# The reference decoder

UTF-8 as its definition has it: which bytes encode which value, and a decoder that takes a
whole encoding wherever one stands and a single byte elsewhere.  `Source.reads_reference`
says that a source goes through the runes of this decoder one by one, each at its line and
column, and reports what the decoder finds wrong and nothing else.
-/

namespace FrontEnd
namespace Utf8

/-! ## Well-formed encodings -/

/-- `b` is the byte `base + n`, where `n` is less than `bound`. -/
structure Carries (base bound : Nat) (b : UInt8) (n : Nat) : Prop where
  byte : b.toNat = base + n
  lt : n < bound

/-- The bytes are the well-formed encoding of the value `v`.  Every byte behind the first
carries six bits.  No value has an encoding longer than it needs, and surrogates and what
is past the last code point have none. -/
inductive Encodes : List UInt8 → Nat → Prop where
  | one {a : UInt8} {v : Nat} (ha : Carries 0 0x80 a v) : Encodes [a] v
  | two {a b : UInt8} {h i v : Nat} (ha : Carries 0xC0 0x20 a h) (hb : Carries 0x80 0x40 b i)
      (hv : v = h * 64 + i) (hmin : 0x80 ≤ v) : Encodes [a, b] v
  | three {a b c : UInt8} {h i j v : Nat} (ha : Carries 0xE0 0x10 a h)
      (hb : Carries 0x80 0x40 b i) (hc : Carries 0x80 0x40 c j)
      (hv : v = (h * 64 + i) * 64 + j) (hmin : 0x800 ≤ v) (hs : v < 0xD800 ∨ 0xDFFF < v) :
      Encodes [a, b, c] v
  | four {a b c d : UInt8} {h i j k v : Nat} (ha : Carries 0xF0 0x08 a h)
      (hb : Carries 0x80 0x40 b i) (hc : Carries 0x80 0x40 c j) (hd : Carries 0x80 0x40 d k)
      (hv : v = ((h * 64 + i) * 64 + j) * 64 + k) (hmin : 0x10000 ≤ v) (hmax : v ≤ 0x10FFFF) :
      Encodes [a, b, c, d] v

theorem carries_ofNat {base bound n : Nat} (h : n < bound) (hb : base + bound ≤ 256) :
    Carries base bound (.ofNat (n + base)) n := by
  refine ⟨?_, h⟩
  rw [UInt8.toNat_ofNat', Nat.mod_eq_of_lt (by omega), Nat.add_comm]

theorem Carries.ofNat {base bound m n : Nat} {b : UInt8} (h : Carries base bound b n)
    (hm : m = n + base) : UInt8.ofNat m = b := by
  rw [hm, Nat.add_comm, ← h.byte, UInt8.ofNat_toNat]

theorem Encodes.exists_char {bs : List UInt8} {v : Nat} (h : Encodes bs v) :
    ∃ c : Char, c.toNat = v := by
  have hv : v.isValidChar := by
    unfold Nat.isValidChar
    cases h with
    | one ha =>
      have ha := ha.lt
      omega
    | two ha hb hv hmin =>
      have ha := ha.lt
      have hb := hb.lt
      omega
    | three ha hb hc hv hmin hs =>
      have ha := ha.lt
      have hb := hb.lt
      have hc := hc.lt
      omega
    | four ha hb hc hd hv hmin hmax => omega
  exact ⟨Char.ofNatAux v hv, rfl⟩

theorem encodes_encodeChar (c : Char) : Encodes (String.utf8EncodeChar c) c.toNat := by
  have hvalid : c.val.toNat < 0xD800 ∨ 0xDFFF < c.val.toNat ∧ c.val.toNat < 0x110000 := c.valid
  have hfirst : ∀ base bound n : Nat, 0 < bound → base + bound ≤ 256 →
      Carries base bound (.ofNat (n % bound + base)) (n % bound) :=
    fun base bound n hb => carries_ofNat (Nat.mod_lt n hb)
  have htail := fun n => hfirst 0x80 0x40 n (by decide) (by decide)
  unfold String.utf8EncodeChar Char.toNat
  generalize c.val.toNat = v at hvalid
  dsimp only
  by_cases h₁ : v ≤ 0x7F
  · rw [if_pos h₁]
    exact .one (carries_ofNat (Nat.lt_succ_of_le h₁) (by decide))
  rw [if_neg h₁]
  by_cases h₂ : v ≤ 0x7FF
  · rw [if_pos h₂]
    exact .two (hfirst 0xC0 0x20 _ (by decide) (by decide)) (htail _) (by omega) (by omega)
  rw [if_neg h₂]
  by_cases h₃ : v ≤ 0xFFFF
  · rw [if_pos h₃]
    exact .three (hfirst 0xE0 0x10 _ (by decide) (by decide)) (htail _) (htail _) (by omega)
      (by omega) (by omega)
  · rw [if_neg h₃]
    exact .four (hfirst 0xF0 0x08 _ (by decide) (by decide)) (htail _) (htail _) (htail _)
      (by omega) (by omega) (by omega)

theorem Encodes.eq_encodeChar {bs : List UInt8} {c : Char} (h : Encodes bs c.toNat) :
    bs = String.utf8EncodeChar c := by
  unfold String.utf8EncodeChar
  change Encodes bs c.val.toNat at h
  generalize c.val.toNat = v at h
  dsimp only
  cases h with
  | one ha =>
    have hlt := ha.lt
    rw [if_pos (by omega), ha.ofNat (Nat.add_zero v).symm]
  | two ha hb hv hmin =>
    have hlt := ha.lt
    have hlt' := hb.lt
    rw [if_neg (by omega), if_pos (by omega), ha.ofNat (by omega), hb.ofNat (by omega)]
  | three ha hb hc hv hmin hs =>
    have hlt := ha.lt
    have hlt' := hb.lt
    have hlt'' := hc.lt
    rw [if_neg (by omega), if_neg (by omega), if_pos (by omega), ha.ofNat (by omega),
      hb.ofNat (by omega), hc.ofNat (by omega)]
  | four ha hb hc hd hv hmin hmax =>
    have hlt := hb.lt
    have hlt' := hc.lt
    have hlt'' := hd.lt
    rw [if_neg (by omega), if_neg (by omega), if_neg (by omega), ha.ofNat (by omega),
      hb.ofNat (by omega), hc.ofNat (by omega), hd.ofNat (by omega)]

/-! ## The decoder -/

def Occurs (bytes : ByteArray) (i : Nat) (bs : List UInt8) : Prop :=
  bytes.extract i (i + bs.length) = bs.toByteArray

/-- The pieces that the bytes fall into from index `i` on: a character where its encoding
stands, and a malformed byte where none does. -/
inductive Decodes (bytes : ByteArray) : Nat → List Piece → Prop where
  | done : Decodes bytes bytes.size []
  | scalar {i : Nat} {bs : List UInt8} {c : Char} {ps : List Piece} (hc : Encodes bs c.toNat)
      (hi : Occurs bytes i bs) (h : Decodes bytes (i + bs.length) ps) :
      Decodes bytes i (.scalar c :: ps)
  | malformed {i : Nat} {ps : List Piece} (hi : i < bytes.size)
      (hno : ∀ bs v, Encodes bs v → ¬ Occurs bytes i bs) (h : Decodes bytes (i + 1) ps) :
      Decodes bytes i (.malformed :: ps)

variable {bytes : ByteArray} {i : Nat}

theorem Occurs.le_size {bs : List UInt8} (h : Occurs bytes i bs) (hbs : 0 < bs.length) :
    i + bs.length ≤ bytes.size := by
  have hsize := congrArg ByteArray.size h
  rw [ByteArray.size_extract, List.size_toByteArray] at hsize
  omega

theorem decode_eq_some_iff {c : Char} :
    bytes.utf8DecodeChar? i = some c ↔ Occurs bytes i (String.utf8EncodeChar c) := by
  have hlen := String.length_utf8EncodeChar c
  rw [ByteArray.utf8DecodeChar?_eq_utf8DecodeChar?_extract]
  constructor
  · intro h
    have hle := ByteArray.le_size_of_utf8DecodeChar?_eq_some h
    obtain ⟨rest, hrest⟩ := ByteArray.exists_of_utf8DecodeChar?_eq_some h
    rw [ByteArray.size_extract, Nat.min_self] at hle
    have hpos := c.utf8Size_pos
    have hcut : bytes.extract i (i + (String.utf8EncodeChar c).length) =
        (bytes.extract i bytes.size).extract 0 (String.utf8EncodeChar c).toByteArray.size := by
      rw [ByteArray.extract_extract, List.size_toByteArray, Nat.add_zero,
        Nat.min_eq_left (by omega)]
    unfold Occurs
    rw [hcut, hrest, ByteArray.extract_append_eq_left rfl]
  · intro h
    have hle := h.le_size (hlen ▸ c.utf8Size_pos)
    rw [ByteArray.extract_eq_extract_append_extract _ (Nat.le_add_right i _) hle,
      show bytes.extract i _ = _ from h]
    exact ByteArray.utf8DecodeChar?_utf8EncodeChar_append

/-- The encoding of a character is what makes the character stand there. -/
theorem at?_of_occurs {bs : List UInt8} {c : Char} (hc : Encodes bs c.toNat)
    (hi : Occurs bytes i bs) : Piece.at? bytes i = some (.scalar c) ∧
      bs.length = (Piece.scalar c).width := by
  obtain rfl := hc.eq_encodeChar
  exact ⟨at?_scalar_iff.2 (decode_eq_some_iff.2 hi), String.length_utf8EncodeChar c⟩

theorem decodes_pieces (hi : i ≤ bytes.size) : Decodes bytes i (pieces bytes i) := by
  induction i using pieces.induct bytes with
  | case1 i hn =>
    have hlt : ¬ i < bytes.size := by
      rw [← Piece.at?_isSome_iff, hn]
      simp
    obtain rfl : i = bytes.size := by omega
    rw [pieces_none hn]
    exact .done
  | case2 i p hp ih =>
    have hlt : i < bytes.size := Piece.at?_isSome_iff.1 (Option.isSome_of_eq_some hp)
    have hrest := ih (width_le_of_at? hp)
    rw [pieces_some hp]
    cases p with
    | scalar c =>
      refine .scalar (encodes_encodeChar c) (decode_eq_some_iff.1 (at?_scalar_iff.1 hp)) ?_
      rw [String.length_utf8EncodeChar]
      exact hrest
    | malformed =>
      refine .malformed hlt (fun bs v hbs hocc => ?_) hrest
      obtain ⟨c, rfl⟩ := hbs.exists_char
      cases hp.symm.trans (at?_of_occurs hbs hocc).1

theorem Decodes.eq_pieces {ps : List Piece} (h : Decodes bytes i ps) : ps = pieces bytes i := by
  induction h with
  | done =>
    have hn : Piece.at? bytes bytes.size = none := if_neg (Nat.lt_irrefl _)
    rw [pieces_none hn]
  | scalar hc hi h ih =>
    obtain ⟨hp, hlen⟩ := at?_of_occurs hc hi
    rw [pieces_some hp, ← hlen, ih]
  | @malformed i ps hi hno h ih =>
    have hp : Piece.at? bytes i = some .malformed := by
      cases hd : bytes.utf8DecodeChar? i with
      | some c => exact absurd (decode_eq_some_iff.1 hd) (hno _ _ (encodes_encodeChar c))
      | none =>
        unfold Piece.at?
        rw [if_pos hi, hd]
        rfl
    rw [pieces_some hp, ih]
    rfl

theorem decodes_iff {ps : List Piece} : Decodes bytes 0 ps ↔ ps = pieces bytes 0 :=
  ⟨Decodes.eq_pieces, fun h => h ▸ decodes_pieces (Nat.zero_le _)⟩

/-! ## What is said of the pieces -/

def Piece.remark (p : Position) : Piece → List (Position × String)
  | malformed => [(p, "invalid UTF-8 encoding")]
  | scalar c =>
    if c = Source.byteOrderMark then [(p, "invalid BOM in the middle of the file")] else []

def remarks (p : Position) : List Piece → List (Position × String)
  | [] => []
  | q :: qs => q.remark p ++ remarks (p.after q.rune) qs

theorem Piece.map_mark (p : Position) (q : Piece) :
    (q.mark p).map (fun d => (d.pos, d.message)) = q.remark p := by
  cases q with
  | malformed => rfl
  | scalar c =>
    rw [mark, problem?, remark]
    by_cases hc : c = Source.byteOrderMark
    · rw [if_pos hc, if_pos hc]
      rfl
    · rw [if_neg hc, if_neg hc]
      rfl

theorem map_marks (k : Nat) (p : Position) (qs : List Piece) :
    (marks k p qs).map (fun r => (r.2.pos, r.2.message)) = remarks p qs := by
  induction qs generalizing k p with
  | nil => rfl
  | cons q qs ih =>
    rw [marks, remarks, List.map_append, ih, List.map_map, ← q.map_mark]
    rfl

/-- Characters in a row give rise to no remarks but those on byte order marks. -/
theorem map_remarks_scalar (p : Position) (cs : List Char) :
    (remarks p (cs.map .scalar)).map (·.2) =
      List.replicate (cs.count Source.byteOrderMark) "invalid BOM in the middle of the file" := by
  induction cs generalizing p with
  | nil => rfl
  | cons c cs ih =>
    rw [List.map_cons, remarks, List.map_append, ih, Piece.remark]
    by_cases hc : c = Source.byteOrderMark
    · rw [if_pos hc, hc, List.count_cons_self, List.replicate_succ]
      rfl
    · rw [if_neg hc, List.count_cons_of_ne hc]
      rfl

theorem body_map_scalar (cs : List Char) :
    body (cs.map .scalar) =
      (if cs.head? = some Source.byteOrderMark then cs.tail else cs).map .scalar := by
  cases cs with
  | nil => rfl
  | cons c cs =>
    rw [List.map_cons, body]
    by_cases hc : c = Source.byteOrderMark
    · rw [if_pos (congrArg Piece.scalar hc), List.head?_cons, if_pos (congrArg some hc)]
      rfl
    · rw [if_neg fun h => hc (Piece.scalar.inj h), List.head?_cons,
        if_neg fun h => hc (Option.some.inj h)]
      rfl

end Utf8

/-- The line is one more than the newlines before, and the column one more than the runes
since the last of them. -/
theorem Position.afterAll_start (cs : List Char) :
    Position.start.afterAll cs =
      ⟨1 + cs.count '\n', 1 + (cs.reverse.takeWhile (· ≠ '\n')).length⟩ := by
  induction cs using List.reverseRecOn with
  | nil => rfl
  | append_singleton cs c ih =>
    rw [afterAll_append, ih, List.reverse_append]
    by_cases hc : c = '\n'
    · simp [hc, Nat.add_assoc]
    · simp [after, hc, Nat.add_assoc]

open Utf8

/-! ## The source -/

namespace Source

theorem log_advance {s : Source} {c : Char} (h : s.rune = some c) :
    s.advance.log.toList = s.log.toList ++ s.advance.arrival := by
  obtain ⟨p, hp, -⟩ := Option.map_eq_some_iff.1 h
  unfold advance
  rw [hp]
  exact log_arrive _

theorem log_ofReads (reads : List Read) :
    (ofReads reads).log.toList = (ofReads reads).arrival := by
  have hfirst := log_arrive ⟨.ofReads reads, .start, [], #[]⟩
  unfold ofReads
  generalize arrive ⟨.ofReads reads, .start, [], #[]⟩ = s at hfirst
  have hsecond := log_arrive (s.step byteOrderMark.utf8Size)
  dsimp only
  split
  · exact hsecond.trans (congrArg (· ++ _) hfirst)
  · exact hfirst

theorem reports_ge (k : Nat) (s : Source) : ∀ r ∈ (Text.fromRune k s).reports, k ≤ r.1 := by
  induction k, s using Text.fromRune.induct with
  | case1 k s hr =>
    rw [Text.fromRune_none hr]
    intro r hm
    obtain ⟨d, -, rfl⟩ := List.mem_map.1 hm
    exact Nat.le_refl k
  | case2 k s c hr ih =>
    rw [Text.fromRune_some hr]
    intro r hm
    rcases List.mem_append.1 hm with hm | hm
    · obtain ⟨d, -, rfl⟩ := List.mem_map.1 hm
      exact Nat.le_refl k
    · exact Nat.le_of_succ_le (ih r hm)

/-- By the time a rune is arrived at, the reports up to it have been made. -/
theorem log_advanceBy {k : Nat} {s : Source} {before : List Diagnostic}
    (h : s.log.toList = before ++ s.arrival) (i : Nat) :
    (s.advanceBy i).log.toList =
      before ++ ((Text.fromRune k s).reports.filter (·.1 ≤ k + i)).map (·.2) := by
  have hhere : ∀ (k n : Nat) (ds : List Diagnostic), k ≤ n →
      ((ds.map (k, ·)).filter (·.1 ≤ n)).map (·.2) = ds := by
    intro k n ds hk
    simp [List.filter_map, Function.comp_def, hk]
  induction k, s using Text.fromRune.induct generalizing before i with
  | case1 k s hr =>
    rw [advanceBy_none hr, Text.fromRune_none hr, hhere k _ _ (Nat.le_add_right k i), h]
  | case2 k s c hr ih =>
    rw [Text.fromRune_some hr, List.filter_append, List.map_append,
      hhere k _ _ (Nat.le_add_right k i)]
    cases i with
    | zero =>
      have hnone : (Text.fromRune (k + 1) s.advance).reports.filter (·.1 ≤ k + 0) = [] :=
        List.filter_eq_nil_iff.2 fun r hm => by
          have hge := reports_ge (k + 1) s.advance r hm
          simp only [decide_eq_true_eq]
          omega
      rw [hnone, List.map_nil, List.append_nil]
      exact h
    | succ i =>
      have hadv := log_advance hr
      rw [h] at hadv
      have hk : k + (i + 1) = k + 1 + i := by omega
      show (s.advance.advanceBy i).log.toList = _
      rw [ih hadv i, hk, List.append_assoc]

end Source

theorem Utf8.filter_marks (k : Nat) (p : Position) (qs : List Piece) (i : Nat) :
    (marks k p qs).filter (·.1 ≤ k + i) = marks k p (qs.take (i + 1)) := by
  have hsplit := marks_append k p (qs.take (i + 1)) (qs.drop (i + 1))
  rw [List.take_append_drop] at hsplit
  rw [hsplit, List.filter_append]
  have hfront : (marks k p (qs.take (i + 1))).filter (·.1 ≤ k + i) =
      marks k p (qs.take (i + 1)) :=
    List.filter_eq_self.2 fun r hr => by
      have hb := (marks_bounds k p _ r hr).2
      rw [List.length_take] at hb
      simp only [decide_eq_true_eq]
      omega
  rw [hfront, List.filter_eq_nil_iff.2, List.append_nil]
  intro r hr
  have hlen : qs.length ≤ i + 1 ∨ (qs.take (i + 1)).length = i + 1 := by
    rw [List.length_take]
    omega
  rcases hlen with hlen | hlen
  · rw [List.drop_eq_nil_of_le hlen] at hr
    cases hr
  · have hb := (marks_bounds _ _ _ r hr).1
    simp only [decide_eq_true_eq]
    omega

namespace Source

variable {reads : List Read} {bytes : ByteArray}

/-- Where a source has come to after some runes, and what it has reported until then. -/
theorem advanceBy_ofReads (h : Delivers reads bytes) {i : Nat}
    (hi : i ≤ (body (pieces bytes 0)).length) :
    ((ofReads reads).advanceBy i).rune = ((body (pieces bytes 0))[i]?).map Piece.rune ∧
      ((ofReads reads).advanceBy i).pos =
        Position.start.afterAll (((body (pieces bytes 0)).take i).map Piece.rune) ∧
      ((ofReads reads).advanceBy i).log.toList =
        (marks 0 .start ((body (pieces bytes 0)).take (i + 1))).map (·.2) := by
  have htext : Text.fromRune 0 (ofReads reads) = .ofPieces (body (pieces bytes 0)) :=
    Text.ofReads_eq_ofPieces h
  have hrune := Text.runes_eq 0 i (ofReads reads)
  have hpos := Text.pos_advanceBy 0 (ofReads reads) (i := i)
  have hstart : (ofReads reads).log.toList = [] ++ (ofReads reads).arrival := log_ofReads reads
  have hlog := log_advanceBy (k := 0) hstart i
  rw [htext] at hrune hpos hlog
  refine ⟨?_, ?_, ?_⟩
  · rw [← hrune]
    exact List.getElem?_map
  · rw [hpos ((List.length_map _).symm ▸ hi), pos_ofReads]
    exact congrArg _ List.map_take.symm
  · rw [hlog, List.nil_append, ← filter_marks 0 .start _ i]
    rfl

/-- A source visits the runes of the reference decoder, less a byte order mark in front.  On
the way it reports the malformed bytes and the other byte order marks, each once it stands
there; so a text that is encoded comes back, with a report for each byte order mark in it. -/
theorem reads_reference (h : Delivers reads bytes) :
    ∃ ps, (∀ qs, Decodes bytes 0 qs ↔ qs = ps) ∧
      (∀ i ≤ (body ps).length,
        let s := (ofReads reads).advanceBy i
        let before := ((body ps).take i).map Piece.rune
        s.rune = ((body ps)[i]?).map Piece.rune ∧
          s.pos = ⟨1 + before.count '\n', 1 + (before.reverse.takeWhile (· ≠ '\n')).length⟩ ∧
          s.log.toList.map (fun d => (d.pos, d.message)) =
            remarks .start ((body ps).take (i + 1))) ∧
      ∀ cs : List Char, bytes = cs.utf8Encode →
        let ds := if cs.head? = some byteOrderMark then cs.tail else cs
        (∀ i ≤ ds.length, ((ofReads reads).advanceBy i).rune = ds[i]?) ∧
          ((ofReads reads).advanceBy ds.length).log.toList.map Diagnostic.message =
            List.replicate (ds.count byteOrderMark) "invalid BOM in the middle of the file" := by
  refine ⟨pieces bytes 0, fun _ => decodes_iff, fun i hi => ?_, fun cs hcs => ?_⟩
  · obtain ⟨hrune, hpos, hlog⟩ := advanceBy_ofReads h hi
    refine ⟨hrune, hpos.trans (Position.afterAll_start _), ?_⟩
    rw [hlog, List.map_map, ← map_marks 0]
    rfl
  · intro ds
    have hbody : body (pieces bytes 0) = ds.map .scalar := by
      rw [hcs, pieces_encode, body_map_scalar]
    have hlength : (body (pieces bytes 0)).length = ds.length := by
      rw [hbody, List.length_map]
    refine ⟨fun i hi => ?_, ?_⟩
    · rw [(advanceBy_ofReads h (hlength ▸ hi)).1, hbody, List.getElem?_map, Option.map_map]
      exact congrFun Option.map_id ds[i]?
    · have hall : (ds.map Piece.scalar).take (ds.length + 1) = ds.map .scalar :=
        List.take_of_length_le (by simp)
      rw [(advanceBy_ofReads h (Nat.le_of_eq hlength.symm)).2.2, hbody, hall,
        ← map_remarks_scalar .start, ← map_marks 0, List.map_map, List.map_map]
      rfl

/-- A sequence that breaks off behind a newline, cut where it goes on. -/
theorem reads_reference_truncated :
    let s := (ofReads [.bytes ⟨#[0x0A, 0xE0]⟩, .interrupted, .bytes ⟨#[0xA0]⟩]).advanceBy 2
    s.rune = some replacement ∧ s.pos = ⟨2, 2⟩ ∧
      s.log.toList.map (fun d => (d.pos, d.message)) =
        [(⟨2, 1⟩, "invalid UTF-8 encoding"), (⟨2, 2⟩, "invalid UTF-8 encoding")] := by
  have hd : Delivers [.bytes ⟨#[0x0A, 0xE0]⟩, .interrupted, .bytes ⟨#[0xA0]⟩]
      (⟨#[0x0A, 0xE0]⟩ ++ (⟨#[0xA0]⟩ ++ .empty)) :=
    .chunk (by decide) (.interrupted (.chunk (by decide) .nothing))
  obtain ⟨ps, hps, hvisits, -⟩ := reads_reference hd
  have hpieces : pieces (⟨#[0x0A, 0xE0]⟩ ++ (⟨#[0xA0]⟩ ++ .empty)) 0 =
      [.scalar '\n', .malformed, .malformed] := by
    rw [pieces_some (p := .scalar '\n') (by decide +kernel),
      pieces_some (p := .malformed) (by decide +kernel),
      pieces_some (p := .malformed) (by decide +kernel), pieces_none (by decide +kernel)]
  obtain rfl : _ = ps := (hps _).1 (decodes_iff.2 hpieces.symm)
  exact hvisits 2 (by decide)

end Source
end FrontEnd
