import FrontEnd.Proofs.Reading.Pieces

/-!
# Carriage returns in front of newlines

With a carriage return in front of every newline an input falls into the same pieces, with
carriage returns among them.  What is reported of a piece is reported at the same position,
but later by as many runes as there are newlines in front of it.
-/

namespace FrontEnd

section PutBefore

variable {α : Type} [DecidableEq α] {a r b : α} {as bs : List α}

def putBefore (a r : α) (bs : List α) : List α :=
  bs.flatMap fun b => if b = a then [r, b] else [b]

theorem putBefore_append : putBefore a r (as ++ bs) = putBefore a r as ++ putBefore a r bs :=
  List.flatMap_append

theorem putBefore_self : putBefore a r (a :: bs) = r :: a :: putBefore a r bs := by
  simp [putBefore]

theorem putBefore_of_ne (h : b ≠ a) : putBefore a r (b :: bs) = b :: putBefore a r bs := by
  simp [putBefore, h]

theorem putBefore_of_not_mem (h : a ∉ bs) : putBefore a r bs = bs := by
  induction bs with
  | nil => rfl
  | cons b bs ih =>
    rw [List.mem_cons, not_or] at h
    rw [putBefore_of_ne (Ne.symm h.1), ih h.2]

theorem length_putBefore : (putBefore a r bs).length = bs.length + bs.count a := by
  induction bs with
  | nil => rfl
  | cons b bs ih =>
    by_cases hb : b = a
    · rw [hb, putBefore_self, List.length_cons, List.length_cons, ih, List.length_cons,
        List.count_cons_self]
      omega
    · rw [putBefore_of_ne hb, List.length_cons, ih, List.length_cons, List.count_cons_of_ne hb]
      omega

end PutBefore

/-- Windows line endings for the runes of a text. -/
def withReturns (cs : List Char) : List Char :=
  putBefore '\n' '\r' cs

namespace Utf8

def bytesWithReturns (bytes : ByteArray) : ByteArray :=
  (putBefore 0x0A 0x0D bytes.data.toList).toByteArray

def piecesWithReturns (ps : List Piece) : List Piece :=
  putBefore (.scalar '\n') (.scalar '\r') ps

theorem rune_ne {p : Piece} (h : p ≠ .scalar '\n') : p.rune ≠ '\n' := by
  cases p with
  | scalar c => exact fun hc => h (congrArg Piece.scalar hc)
  | malformed => decide

theorem map_rune_returns (ps : List Piece) :
    (piecesWithReturns ps).map Piece.rune = withReturns (ps.map Piece.rune) := by
  induction ps with
  | nil => rfl
  | cons p ps ih =>
    unfold piecesWithReturns withReturns at ih ⊢
    by_cases hp : p = .scalar '\n'
    · rw [hp, putBefore_self, List.map_cons, List.map_cons, ih]
      exact putBefore_self.symm
    · rw [putBefore_of_ne hp, List.map_cons, ih, List.map_cons, putBefore_of_ne (rune_ne hp)]

/-- A newline among the pieces is one among the bytes. -/
theorem newline_mem_bytes {bytes : List UInt8}
    (h : Piece.scalar '\n' ∈ pieces bytes.toByteArray 0) : 0x0A ∈ bytes := by
  obtain ⟨as, bs, hps⟩ := List.append_of_mem h
  obtain ⟨front, back, hbytes, hback⟩ := exists_cut hps
  obtain ⟨rest, rfl, -⟩ := exists_encode ['\n'] hback
  have hdata := congrArg ByteArray.data hbytes
  rw [List.data_toByteArray, ByteArray.data_append, ByteArray.data_append] at hdata
  have hlist := congrArg Array.toList hdata
  rw [Array.toList_append, Array.toList_append] at hlist
  show 0x0A ∈ bytes.toArray.toList
  rw [hlist]
  exact List.mem_append_right _ (List.mem_append_left _ List.mem_cons_self)

/-- No sequence of bytes goes on with a carriage return or a newline. -/
theorem pieces_putBefore (bytes : List UInt8) :
    pieces (putBefore 0x0A 0x0D bytes).toByteArray 0 =
      piecesWithReturns (pieces bytes.toByteArray 0) := by
  generalize hn : bytes.length = n
  induction n using Nat.strongRecOn generalizing bytes with
  | ind n ih =>
    by_cases hmem : 0x0A ∈ bytes
    · obtain ⟨front, back, rfl⟩ := List.append_of_mem hmem
      rw [List.length_append, List.length_cons] at hn
      have hplain : (front ++ 0x0A :: back).toByteArray =
          front.toByteArray ++ (['\n'].utf8Encode ++ back.toByteArray) := by
        rw [List.toByteArray_append]
        exact congrArg (front.toByteArray ++ ·) (List.toByteArray_append (l := [0x0A]))
      have hreturned : (putBefore 0x0A 0x0D (front ++ 0x0A :: back)).toByteArray =
          (putBefore 0x0A 0x0D front).toByteArray ++
            (['\r', '\n'].utf8Encode ++ (putBefore 0x0A 0x0D back).toByteArray) := by
        rw [putBefore_append, putBefore_self, List.toByteArray_append]
        exact congrArg ((putBefore 0x0A 0x0D front).toByteArray ++ ·)
          (List.toByteArray_append (l := [0x0D, 0x0A]))
      rw [hplain, hreturned, pieces_append (fresh_encode _ _ _) (Nat.zero_le _),
        pieces_append (fresh_encode _ _ _) (Nat.zero_le _), pieces_encode_append,
        pieces_encode_append, ih _ (by omega) front rfl, ih _ (by omega) back rfl]
      unfold piecesWithReturns
      rw [putBefore_append]
      exact congrArg (_ ++ ·) putBefore_self.symm
    · rw [putBefore_of_not_mem hmem]
      exact (putBefore_of_not_mem (mt newline_mem_bytes hmem)).symm

theorem pieces_returns (bytes : ByteArray) :
    pieces (bytesWithReturns bytes) 0 = piecesWithReturns (pieces bytes 0) := by
  have hlist : bytes.data.toList.toByteArray = bytes := by
    apply ByteArray.ext
    rw [List.data_toByteArray]
  unfold bytesWithReturns
  rw [pieces_putBefore, hlist]

theorem body_returns (ps : List Piece) :
    body (piecesWithReturns ps) = piecesWithReturns (body ps) := by
  cases ps with
  | nil => rfl
  | cons p ps =>
    unfold piecesWithReturns
    by_cases hp : p = .scalar '\n'
    · rw [hp, putBefore_self]
      exact putBefore_self.symm
    · rw [putBefore_of_ne hp, body, body]
      split
      · rfl
      · rw [putBefore_of_ne hp]

end Utf8

namespace Position

/-- A carriage return moves nothing but the newline behind it. -/
theorem afterAll_returns (p : Position) (cs : List Char) :
    p.afterAll (withReturns cs) = p.afterAll cs := by
  induction cs generalizing p with
  | nil => rfl
  | cons c cs ih =>
    unfold withReturns at ih ⊢
    by_cases hc : c = '\n'
    · rw [hc, putBefore_self, afterAll_cons, afterAll_cons, afterAll_cons, ih]
      simp [after]
    · rw [putBefore_of_ne hc, afterAll_cons, afterAll_cons, ih]

end Position

/-- Where the rune with index `k` is once there are carriage returns among the runes. -/
def later (runes : List Char) (k : Nat) : Nat :=
  k + (runes.take k).count '\n'

section Later

variable {runes : List Char} {j k : Nat}

theorem later_mono (h : j ≤ k) : later runes j ≤ later runes k := by
  have hcount := (List.take_sublist_take_left h (l := runes)).count_le '\n'
  unfold later
  omega

theorem later_le_iff : later runes j ≤ later runes k ↔ j ≤ k := by
  refine ⟨fun h => Nat.le_of_not_lt fun hlt => ?_, later_mono⟩
  have hcount := (List.take_sublist_take_left (Nat.le_of_lt hlt) (l := runes)).count_le '\n'
  unfold later at h
  omega

/-- Behind some of the runes to come there are the returns among these. -/
theorem later_add {w rest : List Char} (h : runes.drop k = w ++ rest) :
    later runes (k + w.length) = later runes k + (withReturns w).length := by
  have htake : runes.take (k + w.length) = runes.take k ++ w := by
    rw [List.take_add, h, List.take_left]
  unfold later withReturns
  rw [htake, List.count_append, length_putBefore]
  omega

end Later

def delay (runes : List Char) (r : Nat × Diagnostic) : Nat × Diagnostic :=
  (later runes r.1, r.2)

namespace Utf8

theorem marks_returns {runes : List Char} (k : Nat) (p : Position) (ps : List Piece)
    (h : runes.drop k = ps.map Piece.rune) :
    marks (later runes k) p (piecesWithReturns ps) = (marks k p ps).map (delay runes) := by
  unfold piecesWithReturns
  induction ps generalizing k p with
  | nil => rfl
  | cons q qs ih =>
    have hrest : runes.drop (k + 1) = qs.map Piece.rune := by
      rw [← List.drop_drop, h]
      rfl
    have hnext : later runes (k + 1) = later runes k + (withReturns [q.rune]).length :=
      later_add (w := [q.rune]) h
    have hqs := ih (k + 1) (p.after q.rune) hrest
    rw [marks, List.map_append, ← hqs, hnext]
    by_cases hq : q = .scalar '\n'
    · subst hq
      rw [putBefore_self, marks, marks]
      simp [Piece.mark, Piece.problem?, Piece.rune, Source.byteOrderMark, withReturns, putBefore,
        Position.after]
    · rw [putBefore_of_ne hq, marks, withReturns, putBefore_of_ne (rune_ne hq), List.map_map]
      rfl

end Utf8
end FrontEnd
