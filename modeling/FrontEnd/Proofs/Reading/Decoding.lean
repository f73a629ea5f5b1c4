import FrontEnd.Utf8

/-!
# Decoding in place

What stands at an index is decided by the bytes from there on, and of these by the first
four.  So a piece is the same in a buffer as in the whole input, wherever the buffer was
cut out of it, as long as four bytes are seen or nothing follows.
-/

namespace FrontEnd
namespace Utf8

variable (pre bytes rest : ByteArray) (i : Nat)

theorem decode_prepend :
    (pre ++ bytes).utf8DecodeChar? (pre.size + i) = bytes.utf8DecodeChar? i := by
  rw [ByteArray.utf8DecodeChar?_eq_utf8DecodeChar?_extract, ByteArray.size_append,
    ByteArray.extract_append_size_add,
    ← ByteArray.utf8DecodeChar?_eq_utf8DecodeChar?_extract]

/-- A character that lies within the first part of some bytes stands there by itself. -/
theorem decode_of_append {c : Char} (h : (bytes ++ rest).utf8DecodeChar? i = some c)
    (hi : i + c.utf8Size ≤ bytes.size) : bytes.utf8DecodeChar? i = some c := by
  rw [ByteArray.utf8DecodeChar?_eq_utf8DecodeChar?_extract] at h ⊢
  obtain ⟨l, hl⟩ := ByteArray.exists_of_utf8DecodeChar?_eq_some h
  have hsize : (String.utf8EncodeChar c).toByteArray.size = c.utf8Size := by simp
  have hcut : bytes.extract i bytes.size =
      ((bytes ++ rest).extract i (bytes ++ rest).size).extract 0 (bytes.size - i) := by
    have hmin : min (i + (bytes.size - i)) (bytes ++ rest).size = bytes.size := by
      rw [ByteArray.size_append]
      omega
    rw [ByteArray.extract_extract, hmin, Nat.add_zero, ByteArray.extract_append_size_left]
  have hmax : bytes.size - i = max (bytes.size - i) (String.utf8EncodeChar c).toByteArray.size := by
    rw [hsize]
    omega
  rw [hcut, hl, ByteArray.extract_append, hmax, ByteArray.extract_zero_max_size]
  exact ByteArray.utf8DecodeChar?_utf8EncodeChar_append

theorem decode_append (h : i + 4 ≤ bytes.size) :
    (bytes ++ rest).utf8DecodeChar? i = bytes.utf8DecodeChar? i := by
  cases hb : bytes.utf8DecodeChar? i with
  | some c => exact ByteArray.utf8DecodeChar?_append_eq_some hb rest
  | none =>
    cases hr : (bytes ++ rest).utf8DecodeChar? i with
    | none => rfl
    | some c =>
      have hc := c.utf8Size_le_four
      rw [decode_of_append bytes rest i hr (by omega)] at hb
      cases hb

/-- What stands at an index of a buffer stands there in the whole. -/
theorem at?_buffer (h : i + 4 ≤ bytes.size ∨ rest = .empty) :
    Piece.at? (pre ++ (bytes ++ rest)) (pre.size + i) = Piece.at? bytes i := by
  have hdec : (pre ++ (bytes ++ rest)).utf8DecodeChar? (pre.size + i) =
      bytes.utf8DecodeChar? i := by
    rw [decode_prepend]
    rcases h with h | h
    · exact decode_append bytes rest i h
    · rw [h, ByteArray.append_empty]
  have hlt : pre.size + i < (pre ++ (bytes ++ rest)).size ↔ i < bytes.size := by
    rw [ByteArray.size_append, ByteArray.size_append]
    rcases h with h | h
    · omega
    · rw [h, ByteArray.size_empty]
      omega
  unfold Piece.at?
  rw [hdec]
  by_cases hi : i < bytes.size
  · rw [if_pos hi, if_pos (hlt.2 hi)]
  · rw [if_neg hi, if_neg fun hw => hi (hlt.1 hw)]

/-- A piece does not reach past the bytes it stands in. -/
theorem width_le_of_at? {bytes : ByteArray} {i : Nat} {p : Piece}
    (h : Piece.at? bytes i = some p) : i + p.width ≤ bytes.size := by
  unfold Piece.at? at h
  by_cases hi : i < bytes.size
  · rw [if_pos hi] at h
    cases hd : bytes.utf8DecodeChar? i with
    | none =>
      rw [hd] at h
      cases h
      exact hi
    | some c =>
      rw [hd] at h
      cases h
      exact ByteArray.le_size_of_utf8DecodeChar?_eq_some hd
  · rw [if_neg hi] at h
    cases h

end Utf8
end FrontEnd
