import FrontEnd.Text

/-!
# Runes and where they stand

The runes of a text are those that its source stands on, one advance after the other, and
each stands where the source does.  What is reported on arrival is about the reading of
the input and never about a token.
-/

namespace FrontEnd

namespace Problem

def isInvalidCharacter : Problem → Bool
  | invalidCharacter _ => true
  | _ => false

def isReading : Problem → Bool
  | readFailure _ | malformedEncoding | misplacedByteOrderMark => true
  | _ => false

theorem isInvalidCharacter_of_isReading {p : Problem} (h : p.isReading = true) :
    p.isInvalidCharacter = false := by
  cases p <;> first | rfl | cases h

end Problem

namespace Source

theorem pos_advance {s : Source} {c : Char} (h : s.rune = some c) :
    s.advance.pos = s.pos.after c := by
  obtain ⟨p, hp, hc⟩ := Option.map_eq_some_iff.1 h
  unfold advance
  rw [hp, ← hc]
  rfl

theorem advance_none {s : Source} (h : s.rune = none) : s.advance = s := by
  have hp : s.feed.window.piece = none := Option.map_eq_none_iff.1 h
  unfold advance
  rw [hp]

theorem advanceBy_none {s : Source} (h : s.rune = none) (n : Nat) : s.advanceBy n = s := by
  induction n with
  | zero => rfl
  | succ n ih =>
    show s.advance.advanceBy n = s
    rw [advance_none h]
    exact ih

theorem pos_ofReads (reads : List Read) : (ofReads reads).pos = .start := by
  unfold ofReads
  dsimp only
  split <;> rfl

theorem log_arrive (s : Source) : s.arrive.log.toList = s.log.toList ++ s.arrive.arrival :=
  Array.toList_appendList

def Plain (s : Source) : Prop :=
  ∀ d ∈ s.arrival, d.problem.isReading = true

theorem plain_arrive (s : Source) : s.arrive.Plain := by
  intro d hd
  unfold arrive at hd
  dsimp only at hd
  obtain ⟨p, hp, rfl⟩ := List.mem_map.1 hd
  rcases List.mem_append.1 hp with hp | hp
  · obtain ⟨reason, -, rfl⟩ := Option.map_eq_some_iff.1 (Option.mem_toList.1 hp)
    rfl
  · have hw := Option.mem_toList.1 hp
    unfold pieceProblem at hw
    split at hw
    · cases hw
      rfl
    · split at hw <;> cases hw
      rfl
    · cases hw

theorem plain_advance {s : Source} (h : s.Plain) : s.advance.Plain := by
  unfold advance
  split
  · exact h
  · exact plain_arrive _

theorem plain_ofReads (reads : List Read) : (ofReads reads).Plain := by
  unfold ofReads
  dsimp only
  split
  · intro d hd
    rcases List.mem_append.1 hd with hd | hd
    · exact plain_arrive _ d hd
    · exact plain_arrive _ d hd
  · exact plain_arrive _

end Source

namespace Text

theorem fromRune_none {s : Source} (h : s.rune = none) (k : Nat) :
    fromRune k s = ⟨[], s.arrival.map (k, ·)⟩ := by
  unfold fromRune
  split
  · rfl
  · next hc => rw [h] at hc; cases hc

theorem fromRune_some {s : Source} {c : Char} (h : s.rune = some c) (k : Nat) :
    fromRune k s = ⟨c :: (fromRune (k + 1) s.advance).runes,
      s.arrival.map (k, ·) ++ (fromRune (k + 1) s.advance).reports⟩ := by
  rw [fromRune]
  split
  · next hn => rw [h] at hn; cases hn
  · next d hc =>
    rw [h] at hc
    cases hc
    rfl

theorem runes_eq (k i : Nat) (s : Source) :
    (fromRune k s).runes[i]? = (s.advanceBy i).rune := by
  induction k, s using fromRune.induct generalizing i with
  | case1 k s hr =>
    rw [fromRune_none hr, Source.advanceBy_none hr, hr]
    rfl
  | case2 k s c hr ih =>
    rw [fromRune_some hr]
    cases i with
    | zero => exact hr.symm
    | succ i => exact ih i

theorem pos_advanceBy (k : Nat) (s : Source) {i : Nat} (hi : i ≤ (fromRune k s).runes.length) :
    (s.advanceBy i).pos = s.pos.afterAll ((fromRune k s).runes.take i) := by
  induction k, s using fromRune.induct generalizing i with
  | case1 k s hr =>
    rw [Source.advanceBy_none hr, fromRune_none hr, List.take_nil]
    rfl
  | case2 k s c hr ih =>
    rw [fromRune_some hr] at hi ⊢
    cases i with
    | zero => rfl
    | succ i =>
      have hle : i ≤ (fromRune (k + 1) s.advance).runes.length := Nat.le_of_succ_le_succ hi
      show (s.advance.advanceBy i).pos = _
      rw [ih hle, Source.pos_advance hr]
      rfl

theorem plain_here (k : Nat) {s : Source} (h : s.Plain) :
    ∀ r ∈ s.arrival.map (k, ·), r.2.problem.isReading = true := by
  intro r hr
  obtain ⟨d, hd, rfl⟩ := List.mem_map.1 hr
  exact h d hd

theorem plain_reports (k : Nat) {s : Source} (h : s.Plain) :
    ∀ r ∈ (fromRune k s).reports, r.2.problem.isReading = true := by
  induction k, s using fromRune.induct with
  | case1 k s hr =>
    rw [fromRune_none hr]
    exact plain_here k h
  | case2 k s c hr ih =>
    rw [fromRune_some hr]
    intro r hm
    rcases List.mem_append.1 hm with hm | hm
    · exact plain_here k h r hm
    · exact ih (Source.plain_advance h) r hm

end Text
end FrontEnd
