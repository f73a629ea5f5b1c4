import FrontEnd.Proofs.Lexing.Joining
import FrontEnd.Proofs.Lexing.Order
import FrontEnd.Proofs.Reading.Failure

/-!
# Tokens in front of a failure

One more report among those of the runes changes no token.  The lexer makes it once it has
read as many runes as it takes, and all other reports stay as they are and in their order;
of those that decoding makes, it comes between the ones of the runes before and the ones of
its own rune.
-/

namespace FrontEnd

def Problem.isEncoding : Problem → Bool
  | malformedEncoding => true
  | misplacedByteOrderMark => true
  | _ => false

namespace Diagnostic

variable {d : Diagnostic} {a b c : Bool} {es es' fs fs' : List Diagnostic}

/-- What decoding reports of a rune in front of `d`, or what it does not report. -/
def Early (d e : Diagnostic) : Prop :=
  e.problem.isEncoding = true → e.pos < d.pos

/-- What decoding reports of the rune of `d` or of one behind it, or what it does not
report. -/
def Late (d e : Diagnostic) : Prop :=
  e.problem.isEncoding = true → d.pos ≤ e.pos

/-- The second list is the first one with `d` put where it belongs.  It is not there as long
as it has not been told, and neither once it has been told before. -/
inductive Amends (d : Diagnostic) : Bool → Bool → List Diagnostic → List Diagnostic → Prop where
  | early {es : List Diagnostic} (h : ∀ e ∈ es, d.Early e) : Amends d false false es es
  | here {front back : List Diagnostic} (hf : ∀ e ∈ front, d.Early e)
      (hb : ∀ e ∈ back, d.Late e) : Amends d false true (front ++ back) (front ++ d :: back)
  | late {es : List Diagnostic} (h : ∀ e ∈ es, d.Late e) : Amends d true true es es

theorem Amends.append (h : Amends d a b es es') (h' : Amends d b c fs fs') :
    Amends d a c (es ++ fs) (es' ++ fs') := by
  cases h with
  | early hes =>
    cases h' with
    | early hfs => exact .early (List.forall_mem_append.2 ⟨hes, hfs⟩)
    | here hf hb =>
      rw [← List.append_assoc, ← List.append_assoc]
      exact .here (List.forall_mem_append.2 ⟨hes, hf⟩) hb
  | here hf hb =>
    cases h' with
    | late hfs =>
      rw [List.append_assoc, List.append_assoc, List.cons_append]
      exact .here hf (List.forall_mem_append.2 ⟨hb, hfs⟩)
  | late hes =>
    cases h' with
    | late hfs => exact .late (List.forall_mem_append.2 ⟨hes, hfs⟩)

theorem Amends.plain (h : ∀ e ∈ es, e.problem.isEncoding = false) : Amends d a a es es := by
  cases a with
  | false => exact .early fun e he hen => by rw [h e he] at hen; cases hen
  | true => exact .late fun e he hen => by rw [h e he] at hen; cases hen

end Diagnostic

/-! ## What is due -/

section Due

variable {k n : Nat} {d : Diagnostic} {told : Bool} {as bs ps ps' made : List (Nat × Diagnostic)}

theorem merge_wait (h : ∀ a ∈ as, k ≤ a.1) :
    as.merge bs (fun a b => a.1 ≤ b.1) =
      bs.takeWhile (·.1 < k) ++ as.merge (bs.dropWhile (·.1 < k)) fun a b => a.1 ≤ b.1 := by
  cases as with
  | nil => simp
  | cons a as =>
    induction bs with
    | nil => rfl
    | cons b bs ih =>
      by_cases hb : b.1 < k
      · have ha := h a List.mem_cons_self
        rw [List.takeWhile_cons_of_pos (by simpa using hb),
          List.dropWhile_cons_of_pos (by simpa using hb),
          List.cons_merge_cons_neg _ _ _ (by simp; omega), ih, List.cons_append]
      · rw [List.takeWhile_cons_of_neg (by simpa using hb),
          List.dropWhile_cons_of_neg (by simpa using hb), List.nil_append]

theorem cons_merge_wait (h : ∀ a ∈ as, k ≤ a.1) :
    (((k, d) :: as).merge bs fun a b => a.1 ≤ b.1) =
      bs.takeWhile (·.1 < k) ++
        (k, d) :: as.merge (bs.dropWhile (·.1 < k)) fun a b => a.1 ≤ b.1 := by
  rw [merge_wait (k := k) (List.forall_mem_cons.2 ⟨Nat.le_refl k, h⟩)]
  congr 1
  cases hb : bs.dropWhile (·.1 < k) with
  | nil => simp
  | cons b bs' =>
    have hk := List.head?_dropWhile_not (fun b : Nat × Diagnostic => decide (b.1 < k)) bs
    rw [hb] at hk
    exact List.cons_merge_cons_pos _ _ _ (by simpa using hk)

/-- Merging begins with the front of the first list, whatever is behind it. -/
theorem exists_merge {α : Type} (le : α → α → Bool) (front cs : List α) :
    ∃ first rest, first ⊆ front ++ cs ∧ rest ⊆ cs ∧
      ∀ as, (front ++ as).merge cs le = first ++ as.merge rest le := by
  induction front generalizing cs with
  | nil => exact ⟨[], cs, List.nil_subset _, List.Subset.refl _, fun _ => rfl⟩
  | cons a front ih =>
    induction cs with
    | nil => exact ⟨a :: front, [], by simp, List.Subset.refl _, fun as => by simp⟩
    | cons c cs ihc =>
      by_cases hle : le a c = true
      · obtain ⟨first, rest, hfirst, hrest, h⟩ := ih (c :: cs)
        refine ⟨a :: first, rest, List.cons_subset_cons a hfirst, hrest, fun as => ?_⟩
        rw [List.cons_append, List.cons_merge_cons_pos _ _ _ hle, h, List.cons_append]
      · obtain ⟨first, rest, hfirst, hrest, h⟩ := ihc
        refine ⟨c :: first, rest, ?_, List.subset_cons_of_subset c hrest, fun as => ?_⟩
        · refine List.cons_subset.2 ⟨by simp, fun x hx => ?_⟩
          have hm := hfirst hx
          simp only [List.mem_append, List.mem_cons] at hm ⊢
          tauto
        · have h := h as
          rw [List.cons_append] at h ⊢
          rw [List.cons_merge_cons_neg _ _ _ hle, h, List.cons_append]

/-- The second list is the first one with `d` put in for when `k` runes have been read, and
is the same once `d` has been told. -/
inductive Awaits (k : Nat) (d : Diagnostic) :
    Bool → List (Nat × Diagnostic) → List (Nat × Diagnostic) → Prop where
  | ahead {front back : List (Nat × Diagnostic)} (hf : ∀ r ∈ front, r.1 < k ∧ d.Early r.2)
      (hb : ∀ r ∈ back, k ≤ r.1 ∧ d.Late r.2) :
    Awaits k d false (front ++ back) (front ++ (k, d) :: back)
  | behind {ps : List (Nat × Diagnostic)} (h : ∀ r ∈ ps, d.Late r.2) : Awaits k d true ps ps

theorem early_and_late (h : ∀ r ∈ made, r.2.problem.isEncoding = false) :
    ∀ r ∈ made, d.Early r.2 ∧ d.Late r.2 := by
  intro r hr
  constructor <;> intro hen <;> rw [h r hr] at hen <;> cases hen

theorem amends_merge (hf : ∀ r ∈ as, d.Early r.2) (hb : ∀ r ∈ bs, k ≤ r.1 ∧ d.Late r.2)
    (hmade : ∀ r ∈ made, d.Early r.2 ∧ d.Late r.2) :
    d.Amends false true (((as ++ bs).merge made fun a b => a.1 ≤ b.1).map (·.2))
      (((as ++ (k, d) :: bs).merge made fun a b => a.1 ≤ b.1).map (·.2)) := by
  obtain ⟨first, rest, hfirst, hrest, hmerge⟩ :=
    exists_merge (fun a b : Nat × Diagnostic => decide (a.1 ≤ b.1)) as made
  have hlate : ∀ r ∈ bs, k ≤ r.1 := fun r hr => (hb r hr).1
  have hfront : ∀ r ∈ first ++ rest.takeWhile (·.1 < k), d.Early r.2 := by
    intro r hr
    rcases List.mem_append.1 hr with hr | hr
    · exact (List.mem_append.1 (hfirst hr)).elim (hf r) fun hr => (hmade r hr).1
    · exact (hmade r (hrest (List.takeWhile_subset _ hr))).1
  have hback : ∀ r ∈ bs.merge (rest.dropWhile (·.1 < k)) fun a b => a.1 ≤ b.1, d.Late r.2 := by
    intro r hr
    rcases List.mem_merge.1 hr with hr | hr
    · exact (hb r hr).2
    · exact (hmade r (hrest (List.dropWhile_subset _ hr))).2
  rw [hmerge, hmerge, cons_merge_wait hlate, merge_wait hlate, ← List.append_assoc,
    ← List.append_assoc]
  generalize first ++ rest.takeWhile (·.1 < k) = front at hfront
  rw [List.map_append, List.map_append, List.map_cons]
  exact .here (List.forall_mem_map.2 hfront) (List.forall_mem_map.2 hback)

/-- What is reported once `n` runes have been read, and what is left to be reported. -/
theorem Awaits.due (h : Awaits k d told ps ps') (hn : told = true → k ≤ n)
    (hmade : ∀ r ∈ made, d.Early r.2 ∧ d.Late r.2) :
    d.Amends told (decide (k ≤ n))
        (((ps.takeWhile (·.1 ≤ n)).merge made fun a b => a.1 ≤ b.1).map (·.2))
        (((ps'.takeWhile (·.1 ≤ n)).merge made fun a b => a.1 ≤ b.1).map (·.2)) ∧
      Awaits k d (decide (k ≤ n)) (ps.dropWhile (·.1 ≤ n)) (ps'.dropWhile (·.1 ≤ n)) := by
  cases h with
  | behind h =>
    rw [decide_eq_true (hn rfl)]
    refine ⟨.late ?_, .behind fun r hr => h r (List.dropWhile_subset _ hr)⟩
    refine List.forall_mem_map.2 fun r hr => ?_
    rcases List.mem_merge.1 hr with hr | hr
    · exact h r (List.takeWhile_subset _ hr)
    · exact (hmade r hr).2
  | @ahead front back hf hb =>
    by_cases hk : k ≤ n
    · have hhere : decide ((k, d).1 ≤ n) = true := decide_eq_true hk
      have hfront : ∀ r ∈ front, decide (r.1 ≤ n) = true := by
        intro r hr
        have hlt := (hf r hr).1
        exact decide_eq_true (by omega)
      rw [decide_eq_true hk, List.takeWhile_append_of_pos hfront,
        List.takeWhile_append_of_pos hfront, List.dropWhile_append_of_pos hfront,
        List.dropWhile_append_of_pos hfront, List.takeWhile_cons, List.dropWhile_cons, if_pos hhere,
        if_pos hhere]
      exact ⟨amends_merge (fun r hr => (hf r hr).2)
          (fun r hr => hb r (List.takeWhile_subset _ hr)) hmade,
        .behind fun r hr => (hb r (List.dropWhile_subset _ hr)).2⟩
    · have hback : ∀ r ∈ back, decide (r.1 ≤ n) = false := by
        intro r hr
        have hle := (hb r hr).1
        exact decide_eq_false (by omega)
      have hback' : ∀ r ∈ (k, d) :: back, decide (r.1 ≤ n) = false :=
        List.forall_mem_cons.2 ⟨decide_eq_false hk, hback⟩
      rw [decide_eq_false hk, takeWhile_append_none hback, dropWhile_append_none hback,
        takeWhile_append_none hback', dropWhile_append_none hback']
      refine ⟨.early (List.forall_mem_map.2 fun r hr => ?_),
        .ahead (fun r hr => hf r (List.dropWhile_subset _ hr)) hb⟩
      rcases List.mem_merge.1 hr with hr | hr
      · exact (hf r (List.takeWhile_subset _ hr)).2
      · exact (hmade r hr).1

end Due

/-! ## The lexer -/

namespace Lexer

variable {k : Nat} {d : Diagnostic} {x x' : Lexer}

/-- What is wrong with the gap and with the token is not a matter of decoding. -/
theorem encoding_made (x : Lexer) :
    ∀ r ∈ gapReports x.passed x.pos x.gap ++ x.flaws, r.2.problem.isEncoding = false := by
  intro r hr
  rcases List.mem_append.1 hr with hr | hr
  · have hrefused := refused_gapReports _ _ _ r hr
    generalize r.2.problem = problem at hrefused
    cases problem <;> first | rfl | cases hrefused
  · obtain ⟨f, hf, rfl⟩ := List.mem_map.1 hr
    rcases Lexeme.front_flaw_cases (Option.mem_toList.1 hf) with ⟨c, hc⟩ | ⟨defect, hc⟩
    · exact congrArg Problem.isEncoding hc
    · exact congrArg Problem.isEncoding hc

/-- `x'` stands where `x` does, and has one more report to make or has made it. -/
structure Parallel (k : Nat) (d : Diagnostic) (x x' : Lexer) : Prop where
  same : x' = { x with
    current := { x.current with reports := x'.current.reports }
    pending := x'.pending
    log := x'.log }
  pending : Awaits k d (decide (k ≤ x.passed)) x.pending x'.pending
  log : d.Amends false (decide (k ≤ x.passed)) x.log.toList x'.log.toList

theorem Parallel.next (h : Parallel k d x x') : Parallel k d x.next x'.next ∧
    d.Amends (decide (k ≤ x.passed)) (decide (k ≤ x.next.passed)) x.next.current.reports
      x'.next.current.reports := by
  obtain ⟨hsame, hpending, hlog⟩ := h
  obtain ⟨rs, ps, l, rfl⟩ : ∃ rs ps l, x' = { x with
      current := { x.current with reports := rs }, pending := ps, log := l } := ⟨_, _, _, hsame⟩
  have hle : x.passed ≤ x.next.passed := by
    rw [x.passed_next]
    omega
  obtain ⟨hreports, hleft⟩ := hpending.due (n := x.next.passed)
    (fun ht => Nat.le_trans (of_decide_eq_true ht) hle) (early_and_late x.encoding_made)
  rw [← x.reports_next] at hreports
  rw [← x.pending_next] at hleft
  generalize hx' : ({ x with
    current := { x.current with reports := rs }, pending := ps, log := l } : Lexer) = x'
  have hreports' : x'.next.current.reports =
      ((ps.takeWhile (·.1 ≤ x.next.passed)).merge
        (gapReports x.passed x.pos x.gap ++ x.flaws) fun a b => a.1 ≤ b.1).map (·.2) := by
    rw [x'.reports_next, ← hx']
    rfl
  have hpending' : x'.next.pending = ps.dropWhile (·.1 ≤ x.next.passed) := by
    rw [x'.pending_next, ← hx']
    rfl
  rw [← hreports'] at hreports
  rw [← hpending'] at hleft
  refine ⟨⟨?_, hleft, ?_⟩, hreports⟩
  · rw [← hx']
    rfl
  · rw [x.log_next, x'.log_next, Array.toList_appendList, Array.toList_appendList, ← hx']
    exact hlog.append (hx' ▸ hreports)

theorem Parallel.nextBy (h : Parallel k d x x') (n : Nat) :
    Parallel k d (x.nextBy n) (x'.nextBy n) := by
  induction n generalizing x x' with
  | zero => exact h
  | succ n ih => exact ih h.next.1

theorem Parallel.token (h : Parallel k d x x') : x'.current.token = x.current.token := by
  rw [h.same]

theorem Parallel.pos (h : Parallel k d x x') : x'.current.pos = x.current.pos := by
  rw [h.same]

theorem parallel_ofText {t t' : Text} (hr : t'.runes = t.runes)
    (h : Awaits k d false t.reports t'.reports) : Parallel k d (ofText t) (ofText t') := by
  have hzero : (fun r : Nat × Diagnostic => decide (r.1 = 0)) = fun r => decide (r.1 ≤ 0) := by
    funext r
    simp
  obtain ⟨hlog, hpending⟩ := h.due (n := 0) nofun (List.forall_mem_nil _)
  rw [List.merge_right, List.merge_right, ← hzero, ← log_ofText, ← log_ofText] at hlog
  rw [← hzero, ← pending_ofText, ← pending_ofText] at hpending
  refine ⟨?_, hpending, hlog⟩
  unfold ofText
  rw [hr]

end Lexer

/-! ## The text of bytes behind which a read fails -/

namespace Utf8

variable {reason : String}

theorem marks_pos (k : Nat) (p : Position) (ps : List Piece) :
    ∀ r ∈ marks k p ps, p ≤ r.2.pos ∧ r.2.pos < p.afterAll (ps.map Piece.rune) := by
  induction ps generalizing k p with
  | nil => exact fun r hr => absurd hr List.not_mem_nil
  | cons q qs ih =>
    intro r hr
    rw [List.map_cons, Position.afterAll_cons]
    rcases List.mem_append.1 hr with hr | hr
    · obtain ⟨e, he, rfl⟩ := List.mem_map.1 hr
      obtain ⟨problem, -, rfl⟩ := List.mem_map.1 he
      exact ⟨Position.le_refl p,
        Position.lt_of_lt_of_le (Position.lt_after p q.rune) (Position.le_afterAll _ _)⟩
    · obtain ⟨hle, hlt⟩ := ih _ _ r hr
      exact ⟨Position.le_trans (Position.le_of_lt (Position.lt_after p q.rune)) hle, hlt⟩

theorem runsOut_le (ps : List Piece) : runsOut ps ≤ ps.length := by
  induction ps with
  | nil => exact Nat.le_refl 0
  | cons p ps ih =>
    unfold runsOut
    split
    · exact Nat.succ_le_succ ih
    · exact Nat.zero_le _

theorem awaits_brokenMarks (p : Position) (ps : List Piece) :
    Awaits (runsOut ps) (lost reason p ps) false (marks 0 p ps) (brokenMarks reason 0 p ps) := by
  have hlen : (ps.take (runsOut ps)).length = runsOut ps := by
    rw [List.length_take, Nat.min_eq_left (runsOut_le ps)]
  have hsplit : marks 0 p ps = marks 0 p (ps.take (runsOut ps)) ++
      marks (0 + runsOut ps) (lost reason p ps).pos (ps.drop (runsOut ps)) := by
    have happ := marks_append 0 p (ps.take (runsOut ps)) (ps.drop (runsOut ps))
    rwa [List.take_append_drop, hlen] at happ
  unfold brokenMarks
  rw [hsplit, Nat.zero_add]
  refine .ahead (fun r hr => ⟨?_, fun _ => (marks_pos _ _ _ r hr).2⟩)
    fun r hr => ⟨(marks_bounds _ _ _ r hr).1, fun _ => (marks_pos _ _ _ r hr).1⟩
  have hb := (marks_bounds _ _ _ r hr).2
  omega

end Utf8

open Utf8

/-- Reads of the same bytes of which the last one fails give lexers that stand at the same
places. -/
theorem Breaks.parallel {reason : String} {later reads reads' : List Read} {bytes : ByteArray}
    (h' : Breaks reason later reads' bytes) (h : Delivers reads bytes) :
    Lexer.Parallel (runsOut (body (pieces bytes 0))) (lost reason .start (body (pieces bytes 0)))
      (.ofText (.ofReads reads)) (.ofText (.ofReads reads')) := by
  rw [Text.ofReads_eq_ofPieces h, Text.ofReads_breaks h']
  exact Lexer.parallel_ofText rfl (awaits_brokenMarks .start _)

end FrontEnd
