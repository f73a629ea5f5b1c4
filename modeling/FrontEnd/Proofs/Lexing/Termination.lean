import FrontEnd.Proofs.Lexing.Joining

/-!
# A text comes to its end

Every rune takes a byte at least of what the reads bring, and every token but the end takes
a rune at least of the text.  At the end of the text nothing is left to be taken, nor to be
reported, so a lexer that has returned the end stays where it is.
-/

namespace FrontEnd

namespace Source

theorem pending_step_le (s : Source) (n : Nat) : (s.step n).pending ≤ s.pending := by
  simp only [pending, Feed.pending, step, Window.step, Window.ahead]
  omega

/-- A source has no more to pass than its reads bring. -/
theorem pending_ofReads_le (reads : List Read) : (ofReads reads).pending ≤ Read.total reads := by
  have hstart : (⟨.ofReads reads, .start, [], #[]⟩ : Source).pending = Read.total reads :=
    Nat.zero_add _
  have harrive := pending_arrive_le ⟨.ofReads reads, .start, [], #[]⟩
  rw [hstart] at harrive
  unfold ofReads
  dsimp only
  split
  · refine Nat.le_trans (pending_arrive_le _) (Nat.le_trans (pending_step_le _ _) harrive)
  · exact harrive

end Source

namespace Text

theorem pending_advanceBy (k : Nat) (s : Source) {i : Nat}
    (hi : i ≤ (fromRune k s).runes.length) : (s.advanceBy i).pending + i ≤ s.pending := by
  induction k, s using fromRune.induct generalizing i with
  | case1 k s hr =>
    rw [fromRune_none hr] at hi
    rw [Nat.le_zero.1 hi]
    exact Nat.le_refl _
  | case2 k s c hr ih =>
    rw [fromRune_some hr] at hi
    cases i with
    | zero => exact Nat.le_refl _
    | succ i =>
      have hrest := ih (Nat.le_of_succ_le_succ hi)
      have hlt := Source.pending_advance_lt hr
      show (s.advance.advanceBy i).pending + (i + 1) ≤ s.pending
      omega

theorem reports_le (k : Nat) (s : Source) :
    ∀ r ∈ (fromRune k s).reports, r.1 ≤ k + (fromRune k s).runes.length := by
  have hhere : ∀ (k n : Nat) (s : Source), ∀ r ∈ s.arrival.map (k, ·), r.1 ≤ k + n := by
    intro k n s r hr
    obtain ⟨d, -, rfl⟩ := List.mem_map.1 hr
    exact Nat.le_add_right k n
  induction k, s using fromRune.induct with
  | case1 k s hr =>
    rw [fromRune_none hr]
    exact hhere k _ s
  | case2 k s c hr ih =>
    rw [fromRune_some hr]
    refine List.forall_mem_append.2 ⟨hhere k _ s, fun r hm => ?_⟩
    have hle := ih r hm
    rw [List.length_cons]
    omega

end Text

namespace Lexer

variable {x : Lexer}

/-- All that is still to be reported on arriving somewhere is so by the end of the text. -/
def Closes (x : Lexer) : Prop :=
  ∀ r ∈ x.pending, r.1 ≤ x.passed + x.rest.length

theorem closes_ofReads (reads : List Read) : (ofText (.ofReads reads)).Closes := by
  intro r hr
  rw [pending_ofText] at hr
  have hle := Text.reports_le 0 _ r (List.dropWhile_subset _ hr)
  exact hle

theorem Closes.next (h : x.Closes) : x.next.Closes := by
  intro r hr
  rw [x.pending_next] at hr
  rw [x.passed_add_rest]
  exact h r (List.dropWhile_subset _ hr)

theorem Closes.nextBy (h : x.Closes) (n : Nat) : (x.nextBy n).Closes := by
  induction n generalizing x with
  | zero => exact h
  | succ n ih => exact ih h.next

/-- The end has been returned, and nothing is left to be taken or reported. -/
structure Ended (x : Lexer) : Prop where
  token : x.current.token = .eof
  pos : x.current.pos = x.pos
  rest : x.rest = []
  pending : x.pending = []

/-- A lexer that returns the end has reported all there is. -/
theorem Closes.ended (h : x.Closes) (he : x.next.current.token.kind = .eof) : x.next.Ended := by
  obtain ⟨-, hlexeme⟩ := lexeme_end he
  have hrest := Tokens.rest_end he
  refine ⟨?_, ?_, hrest, ?_⟩
  · rw [x.token_next, hlexeme]
    rfl
  · rw [x.pos_next, hlexeme]
    rfl
  · rw [x.pending_next, List.dropWhile_eq_nil_iff]
    intro r hr
    have hle := h r hr
    have htotal := x.passed_add_rest
    rw [hrest, List.length_nil] at htotal
    exact decide_eq_true (by omega)

/-- Behind the end there is the end again, and nothing is reported. -/
theorem Ended.next (h : x.Ended) :
    x.next.Ended ∧ x.next.pos = x.pos ∧ x.next.log = x.log := by
  have hahead : x.ahead = [] := by
    rw [ahead, h.rest]
    rfl
  have hcloses : x.Closes := by
    intro r hr
    rw [h.pending] at hr
    cases hr
  have hended := hcloses.ended (x.kind_next_eq_eof.2 hahead)
  obtain ⟨hgap, hlexeme⟩ := lexeme_end (x.kind_next_eq_eof.2 hahead)
  rw [h.rest] at hgap
  refine ⟨hended, ?_, ?_⟩
  · rw [← hended.pos, x.pos_current_next, hgap]
    rfl
  · rw [x.log_next, x.reports_next, h.pending, hgap, flaws, hlexeme]
    simp [gapReports]

theorem Ended.nextBy (h : x.Ended) (n : Nat) :
    (x.nextBy n).Ended ∧ (x.nextBy n).pos = x.pos ∧ (x.nextBy n).log = x.log := by
  induction n generalizing x with
  | zero => exact ⟨h, rfl, rfl⟩
  | succ n ih =>
    obtain ⟨hnext, hpos, hlog⟩ := h.next
    obtain ⟨hended, hpos', hlog'⟩ := ih hnext
    exact ⟨hended, hpos'.trans hpos, hlog'.trans hlog⟩

theorem Closes.end_stays (h : x.Closes) {n m : Nat} (hnm : n ≤ m)
    (he : (x.nextBy (n + 1)).current.token.kind = .eof) :
    (x.nextBy (m + 1)).current.token = .eof ∧
      (x.nextBy (m + 1)).current.pos = (x.nextBy (n + 1)).current.pos ∧
      (x.nextBy (m + 1)).log = (x.nextBy (n + 1)).log := by
  obtain ⟨k, rfl⟩ : ∃ k, m = n + k := ⟨m - n, by omega⟩
  have hended : (x.nextBy (n + 1)).Ended := by
    rw [nextBy_succ] at he ⊢
    exact (h.nextBy n).ended he
  obtain ⟨hlater, hpos, hlog⟩ := hended.nextBy k
  have hsplit : x.nextBy (n + k + 1) = (x.nextBy (n + 1)).nextBy k := by
    rw [Nat.add_right_comm, nextBy_add]
  rw [hsplit]
  exact ⟨hlater.token, hlater.pos.trans (hpos.trans hended.pos.symm), hlog⟩

/-- The end is come to after at most one call more than there are runes. -/
theorem exists_end (x : Lexer) :
    ∃ n ≤ x.rest.length, (x.nextBy (n + 1)).current.token.kind = .eof := by
  induction hn : x.rest.length using Nat.strong_induction_on generalizing x with
  | _ n ih =>
    by_cases he : x.next.current.token.kind = .eof
    · exact ⟨0, Nat.zero_le _, he⟩
    · have hlt := length_rest_next_lt he
      obtain ⟨m, hm, hend⟩ := ih _ (hn ▸ hlt) x.next rfl
      exact ⟨m + 1, by omega, hend⟩

/-- A token stands behind a gap, and one that is not the end has a rune at least. -/
theorem takes_next (x : Lexer) : ∃ gap,
    x.rest = gap ++ (x.next.current.token.lexeme.toList ++ x.next.rest) ∧
    (x.next.current.token.kind ≠ .eof → x.next.current.token.lexeme.toList ≠ []) := by
  refine ⟨x.gap, by rw [x.toList_lexeme_next, ← x.rest_eq], fun he hnil => ?_⟩
  obtain ⟨c, cs, ha, -⟩ := exists_ahead he
  rw [x.toList_lexeme_next, lexeme_eq_scan ha] at hnil
  exact Lexeme.scan_runes_ne_nil c cs hnil

end Lexer
end FrontEnd
