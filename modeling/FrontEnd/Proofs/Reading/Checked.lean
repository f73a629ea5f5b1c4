import FrontEnd.Proofs.Reading.Delivery

/-!
# Indices in range

Reading once more, with every subtraction and every slice of the buffer checked: one that
goes below zero or out of the buffer makes the whole operation fail.  None ever does, for
any reads at all, since the head stays in the buffer and the mark behind the head.
-/

namespace FrontEnd

def minus? (m n : Nat) : Option Nat :=
  if n ≤ m then some (m - n) else none

def slice? (bytes : ByteArray) (i j : Nat) : Option ByteArray :=
  if i ≤ j ∧ j ≤ bytes.size then some (bytes.extract i j) else none

theorem minus?_eq {m n : Nat} (h : n ≤ m) : minus? m n = some (m - n) :=
  if_pos h

theorem slice?_eq {bytes : ByteArray} {i j : Nat} (hi : i ≤ j) (hj : j ≤ bytes.size) :
    slice? bytes i j = some (bytes.extract i j) :=
  if_pos ⟨hi, hj⟩

namespace Window

def ahead? (w : Window) : Option Nat :=
  minus? w.bytes.size w.head

def trim? (w : Window) : Option Window := do
  let keep := min (w.mark.getD w.head) w.head
  let bytes ← slice? w.bytes keep w.bytes.size
  let head ← minus? w.head keep
  match w.mark with
  | none => return ⟨bytes, w.base + keep, head, none⟩
  | some m => return ⟨bytes, w.base + keep, head, some (← minus? m keep)⟩

/-- What the head sees: the window without what is before the head. -/
def view? (w : Window) : Option Window := do
  return ⟨← slice? w.bytes w.head w.bytes.size, w.offset, 0, none⟩

def segment? (w : Window) : Option (List Char) := do
  return Utf8.lossy (← slice? w.bytes (w.mark.getD w.head) w.head) 0

variable {w : Window}

theorem InRange.ahead? (h : w.InRange) : w.ahead? = some w.ahead :=
  minus?_eq h.head_le

theorem InRange.trim? (h : w.InRange) : w.trim? = some w.trim := by
  have hhead := h.head_le
  have hkeep := w.keep_le
  have hmark := h.keep_eq
  unfold Window.trim? Window.trim
  generalize hk : min (w.mark.getD w.head) w.head = keep at hkeep hmark
  dsimp only
  rw [slice?_eq (by omega) (Nat.le_refl _), minus?_eq hkeep]
  cases hm : w.mark with
  | none => rfl
  | some m =>
    have hle : keep ≤ m := by
      rw [hmark, hm]
      exact Nat.le_refl _
    simp only [Option.bind_eq_bind, Option.bind_some, minus?_eq hle]
    rfl

theorem InRange.view? (h : w.InRange) :
    w.view? = some ⟨w.bytes.extract w.head w.bytes.size, w.offset, 0, none⟩ := by
  unfold Window.view?
  rw [slice?_eq h.head_le (Nat.le_refl _)]
  rfl

theorem InRange.segment? (h : w.InRange) : w.segment? = some w.segment := by
  have hle : w.mark.getD w.head ≤ w.head := by
    rw [← h.keep_eq]
    exact w.keep_le
  unfold Window.segment?
  rw [slice?_eq hle h.head_le]
  rfl

end Window

namespace Feed

def fillFrom? (w : Window) : List Read → Option (Feed × Option String)
  | [] => do
    if lookahead ≤ (← w.ahead?) then return (⟨w, [], false⟩, none)
    else return (⟨← w.trim?, [], true⟩, none)
  | r :: rs => do
    if lookahead ≤ (← w.ahead?) then return (⟨w, r :: rs, false⟩, none)
    else
      let w ← w.trim?
      match r with
      | .interrupted => fillFrom? w rs
      | .failed reason => return (⟨w, rs, true⟩, some reason)
      | .bytes chunk =>
        if chunk.size = 0 then return (⟨w, rs, true⟩, none)
        else fillFrom? (w.append chunk) rs

def fill? (f : Feed) : Option (Feed × Option String) :=
  if f.ended then some (f, none) else fillFrom? f.window f.reads

theorem fillFrom?_eq {w : Window} (h : w.InRange) (rs : List Read) :
    fillFrom? w rs = some (fillFrom w rs) ∧ (fillFrom w rs).1.window.InRange := by
  induction rs generalizing w with
  | nil =>
    unfold fillFrom? fillFrom
    rw [h.ahead?, h.trim?, Option.bind_eq_bind, Option.bind_some]
    by_cases hs : lookahead ≤ w.ahead
    · rw [if_pos hs, if_pos hs]
      exact ⟨rfl, h⟩
    · rw [if_neg hs, if_neg hs]
      exact ⟨rfl, h.trim⟩
  | cons r rs ih =>
    unfold fillFrom? fillFrom
    rw [h.ahead?, h.trim?, Option.bind_eq_bind, Option.bind_some]
    by_cases hs : lookahead ≤ w.ahead
    · rw [if_pos hs, if_pos hs]
      exact ⟨rfl, h⟩
    · rw [if_neg hs, if_neg hs, Option.bind_eq_bind, Option.bind_some]
      cases r with
      | interrupted => exact ih h.trim
      | failed reason => exact ⟨rfl, h.trim⟩
      | bytes chunk =>
        dsimp only
        by_cases hc : chunk.size = 0
        · rw [if_pos hc, if_pos hc]
          exact ⟨rfl, h.trim⟩
        · rw [if_neg hc, if_neg hc]
          exact ih (h.trim.append chunk)

theorem fill?_eq {f : Feed} (h : f.window.InRange) :
    f.fill? = some f.fill ∧ f.fill.1.window.InRange := by
  unfold fill? fill
  by_cases he : f.ended = true
  · rw [if_pos he, if_pos he]
    exact ⟨rfl, h⟩
  · rw [if_neg he, if_neg he]
    exact fillFrom?_eq h f.reads

end Feed

namespace Source

def arrive? (s : Source) : Option Source := do
  let (feed, failure) ← s.feed.fill?
  let view ← feed.window.view?
  let problems := (failure.map Problem.readFailure).toList ++ (pieceProblem view).toList
  let arrival := problems.map (Diagnostic.mk s.pos)
  return { s with feed := feed, arrival := arrival, log := s.log ++ arrival }

def ofReads? (reads : List Read) : Option Source := do
  let s ← arrive? ⟨.ofReads reads, .start, [], #[]⟩
  if s.rune = some byteOrderMark then
    let t ← (s.step byteOrderMark.utf8Size).arrive?
    return { t with arrival := s.arrival ++ t.arrival }
  else return s

def advance? (s : Source) : Option Source :=
  match s.feed.window.piece with
  | none => some s
  | some p => arrive? { s.step p.width with pos := s.pos.after p.rune }

def segment? (s : Source) : Option String := do
  return String.ofList (← s.feed.window.segment?)

def InRange (s : Source) : Prop :=
  s.feed.window.InRange

variable {s : Source}

/-- What stands at the head is what the view begins with. -/
theorem pieceProblem_view (w : Window) :
    pieceProblem ⟨w.bytes.extract w.head w.bytes.size, w.offset, 0, none⟩ = pieceProblem w := by
  have hp : Utf8.Piece.at? (w.bytes.extract w.head w.bytes.size) 0 =
      Utf8.Piece.at? w.bytes w.head := by
    unfold Utf8.Piece.at?
    rw [← ByteArray.utf8DecodeChar?_eq_utf8DecodeChar?_extract, ByteArray.size_extract,
      Nat.min_self]
    by_cases hlt : w.head < w.bytes.size
    · rw [if_pos hlt, if_pos (Nat.sub_pos_of_lt hlt)]
    · rw [if_neg hlt, if_neg (by omega)]
  unfold pieceProblem Window.piece
  rw [hp]
  rfl

theorem arrive?_eq (h : s.InRange) : s.arrive? = some s.arrive ∧ s.arrive.InRange := by
  obtain ⟨hf, hr⟩ := Feed.fill?_eq h
  unfold arrive? arrive
  cases hfill : s.feed.fill with
  | mk feed failure =>
    rw [hfill] at hf hr
    refine ⟨?_, hr⟩
    rw [hf, Option.bind_eq_bind, Option.bind_some]
    dsimp only
    rw [hr.view?, Option.bind_eq_bind, Option.bind_some, pieceProblem_view]
    rfl

theorem advance?_eq (h : s.InRange) : s.advance? = some s.advance ∧ s.advance.InRange := by
  unfold advance? advance
  cases hp : s.feed.window.piece with
  | none => exact ⟨rfl, h⟩
  | some p => exact arrive?_eq (h.step hp)

theorem segment?_eq (h : s.InRange) : s.segment? = some s.segment := by
  unfold segment? segment
  rw [Window.InRange.segment? h]
  rfl

/-- A byte order mark that is passed over lies in the buffer. -/
theorem inRange_step_mark (h : s.InRange) (hr : s.rune = some byteOrderMark) :
    (s.step byteOrderMark.utf8Size).InRange := by
  obtain ⟨p, hp, hpr⟩ := Option.map_eq_some_iff.1 hr
  rw [← width_of_mark hpr]
  exact h.step hp

theorem ofReads?_eq (reads : List Read) :
    ofReads? reads = some (ofReads reads) ∧ (ofReads reads).InRange := by
  have hstart : InRange ⟨.ofReads reads, .start, [], #[]⟩ :=
    ⟨Nat.le_refl _, fun m hm => by cases hm⟩
  obtain ⟨ha, hs⟩ := arrive?_eq hstart
  unfold ofReads? ofReads
  rw [ha, Option.bind_eq_bind, Option.bind_some]
  generalize arrive ⟨.ofReads reads, .start, [], #[]⟩ = s at hs
  dsimp only
  by_cases hr : s.rune = some byteOrderMark
  · rw [if_pos hr, if_pos hr]
    obtain ⟨hb, ht⟩ := arrive?_eq (inRange_step_mark hs hr)
    rw [hb]
    exact ⟨rfl, ht⟩
  · rw [if_neg hr, if_neg hr]
    exact ⟨rfl, hs⟩

end Source
end FrontEnd
