import FrontEnd.Proofs.Literal.Grammar
import Mathlib.Data.Nat.Digits.Lemmas

/-!
# The number that digits write

The converter of integers takes the digits of a literal from the left, and stops at the first
that is none of its base and at the first with which the number is past the limit.  So the class
of its error is decided by the front of the digits, and not by all of them.
-/

namespace FrontEnd
namespace Base

variable {b : Base} {n d : Nat} {vs : List Nat} {cs : List Char}

theorem radix_pos (b : Base) : 0 < b.radix := by
  cases b <;> decide

/-- The number that digits of base `b` write, the most significant first. -/
def number? (b : Base) (cs : List Char) : Option Nat :=
  (cs.mapM b.digit?).map fun vs => Nat.ofDigits b.radix vs.reverse

def extend (b : Base) (n : Nat) (vs : List Nat) : Nat :=
  n * b.radix ^ vs.length + Nat.ofDigits b.radix vs.reverse

theorem extend_nil : b.extend n [] = n := by
  simp [extend]

theorem extend_cons : b.extend n (d :: vs) = b.extend (n * b.radix + d) vs := by
  simp only [extend, List.reverse_cons, Nat.ofDigits_append, Nat.ofDigits_singleton,
    List.length_reverse, List.length_cons, Nat.pow_succ]
  ring

theorem extend_append {us : List Nat} :
    b.extend n (us ++ vs) = b.extend (b.extend n us) vs := by
  induction us generalizing n with
  | nil => rw [List.nil_append, extend_nil]
  | cons d us ih => rw [List.cons_append, extend_cons, extend_cons, ih]

theorem extend_zero : b.extend 0 vs = Nat.ofDigits b.radix vs.reverse := by
  simp [extend]

theorem le_extend (b : Base) (n : Nat) (vs : List Nat) : n ≤ b.extend n vs :=
  Nat.le_add_right_of_le (Nat.le_mul_of_pos_right n (Nat.pow_pos b.radix_pos))

theorem mapM_digit?_nil : [].mapM b.digit? = some vs ↔ vs = [] := by
  rw [List.mapM_nil]
  exact Option.some_inj.trans eq_comm

theorem mapM_digit?_cons {c : Char} : (c :: cs).mapM b.digit? = some vs ↔
    ∃ d ds, b.digit? c = some d ∧ cs.mapM b.digit? = some ds ∧ vs = d :: ds := by
  rw [List.mapM_cons]
  cases b.digit? c with
  | none => simp
  | some d =>
    cases cs.mapM b.digit? with
    | none => simp
    | some ds => simp [eq_comm]

end Base

namespace Literal

variable {b : Base} {limit n v : Nat} {front back ds : List Char} {vs : List Nat}

theorem digitsFrom_cons {c : Char} {d : Nat} (hc : b.digit? c = some d) :
    digitsFrom b limit n (c :: ds) =
      if n * b.radix + d ≤ limit then digitsFrom b limit (n * b.radix + d) ds
      else .error .overflow := by
  rw [digitsFrom, hc]

/-- Digits are taken in as long as the number stays within the limit. -/
theorem digitsFrom_append (hfront : front.mapM b.digit? = some vs) (hle : b.extend n vs ≤ limit) :
    digitsFrom b limit n (front ++ back) = digitsFrom b limit (b.extend n vs) back := by
  induction front generalizing n vs with
  | nil =>
    obtain rfl := Base.mapM_digit?_nil.1 hfront
    rw [Base.extend_nil, List.nil_append]
  | cons c front ih =>
    obtain ⟨d, ds, hc, hds, rfl⟩ := Base.mapM_digit?_cons.1 hfront
    rw [Base.extend_cons] at hle ⊢
    have hnext := (b.le_extend (n * b.radix + d) ds).trans hle
    rw [List.cons_append, digitsFrom_cons hc, if_pos hnext, ih hds hle]

theorem digitsFrom_excess (hfront : front.mapM b.digit? = some vs) (hn : n ≤ limit)
    (hlt : limit < b.extend n vs) :
    digitsFrom b limit n (front ++ back) = .error .overflow := by
  induction front generalizing n vs with
  | nil =>
    obtain rfl := Base.mapM_digit?_nil.1 hfront
    rw [Base.extend_nil] at hlt
    omega
  | cons c front ih =>
    obtain ⟨d, ds, hc, hds, rfl⟩ := Base.mapM_digit?_cons.1 hfront
    rw [Base.extend_cons] at hlt
    rw [List.cons_append, digitsFrom_cons hc]
    by_cases hnext : n * b.radix + d ≤ limit
    · rw [if_pos hnext]
      exact ih hds hnext hlt
    · rw [if_neg hnext]

theorem number?_eq_some : b.number? ds = some v ↔
    ∃ vs, ds.mapM b.digit? = some vs ∧ b.extend 0 vs = v := by
  simp [Base.number?, Base.extend_zero]

theorem not_mem_digits {c : Char} : c ∉ b.digits.toList ↔ b.digit? c = none := by
  rw [← Base.isSome_digit?_iff, Bool.not_eq_true, Option.isSome_eq_false_iff,
    Option.isNone_iff_eq_none]

/-- A text is all digits, or there is a first rune that is none. -/
theorem exists_number (b : Base) (ds : List Char) : ∃ n, b.number? ds = some n ∨
    ∃ front c back, ds = front ++ c :: back ∧ b.number? front = some n ∧
      c ∉ b.digits.toList := by
  suffices h : ∃ vs, ds.mapM b.digit? = some vs ∨ ∃ front c back, ds = front ++ c :: back ∧
      front.mapM b.digit? = some vs ∧ b.digit? c = none by
    obtain ⟨vs, h | ⟨front, c, back, hds, h, hc⟩⟩ := h
    · exact ⟨_, Or.inl (number?_eq_some.2 ⟨vs, h, rfl⟩)⟩
    · exact ⟨_, Or.inr ⟨front, c, back, hds, number?_eq_some.2 ⟨vs, h, rfl⟩, not_mem_digits.2 hc⟩⟩
  induction ds with
  | nil => exact ⟨[], Or.inl rfl⟩
  | cons c cs ih =>
    cases hc : b.digit? c with
    | none => exact ⟨[], Or.inr ⟨[], c, cs, rfl, rfl, hc⟩⟩
    | some d =>
      obtain ⟨vs, h⟩ := ih
      refine ⟨d :: vs, h.imp (fun h => Base.mapM_digit?_cons.2 ⟨d, vs, hc, h, rfl⟩) ?_⟩
      rintro ⟨front, c', back, rfl, h, hc'⟩
      exact ⟨c :: front, c', back, rfl, Base.mapM_digit?_cons.2 ⟨d, vs, hc, h, rfl⟩, hc'⟩

theorem mem_digits_of_number? (h : b.number? ds = some v) : ∀ c ∈ ds, c ∈ b.digits.toList := by
  obtain ⟨vs, hvs, -⟩ := number?_eq_some.1 h
  clear h
  induction ds generalizing vs with
  | nil => exact List.forall_mem_nil _
  | cons c ds ih =>
    obtain ⟨d, vs, hc, hds, rfl⟩ := Base.mapM_digit?_cons.1 hvs
    refine List.forall_mem_cons.2 ⟨Base.isSome_digit?_iff.1 ?_, ih _ hds⟩
    rw [hc]
    rfl

theorem isDigit_of_number? (h : Base.decimal.number? ds = some v) : ∀ c ∈ ds, c.isDigit = true :=
  fun c hc => Base.takes_of_digits (b := .decimal) (mem_digits_of_number? h c hc)

/-! ## Which error it is -/

/-- What becomes of the runes behind the lead of a literal, which should be digits in base `b`
that write a number up to `limit`. -/
inductive Outcome (b : Base) (limit : Nat) : List Char → Except LiteralError Nat → Prop where
  | value {ds : List Char} {v : Nat} (hne : ds ≠ []) (h : b.number? ds = some v)
    (hle : v ≤ limit) : Outcome b limit ds (.ok v)
  | empty : Outcome b limit [] (.error .malformed)
  /-- Behind digits that write a number within the limit there is what is no digit. -/
  | stray {front : List Char} {c : Char} {back : List Char} {n : Nat}
    (h : b.number? front = some n) (hle : n ≤ limit) (hc : c ∉ b.digits.toList) :
    Outcome b limit (front ++ c :: back) (.error .malformed)
  /-- Digits at the front write a number past the limit, whatever is behind them. -/
  | excess {front back : List Char} {n : Nat} (h : b.number? front = some n) (hlt : limit < n) :
    Outcome b limit (front ++ back) (.error .overflow)

theorem Outcome.beyond (h : b.number? ds = some n) (hlt : limit < n) :
    Outcome b limit ds (.error .overflow) := by
  rw [← List.append_nil ds]
  exact .excess h hlt

theorem Outcome.eq {r : Except LiteralError Nat} (h : Outcome b limit ds r) :
    digitsValue b limit ds = r := by
  cases h with
  | value hne h hle =>
    obtain ⟨vs, hvs, rfl⟩ := number?_eq_some.1 h
    rw [digitsValue, if_neg hne, ← List.append_nil ds, digitsFrom_append hvs hle]
    rfl
  | empty => rfl
  | @stray front c back n h hle hc =>
    obtain ⟨vs, hvs, rfl⟩ := number?_eq_some.1 h
    rw [digitsValue, if_neg (by simp), digitsFrom_append hvs hle, digitsFrom, not_mem_digits.1 hc]
  | @excess front back n h hlt =>
    obtain ⟨vs, hvs, rfl⟩ := number?_eq_some.1 h
    have hne : front ++ back ≠ [] := by
      intro hnil
      obtain ⟨rfl, -⟩ := List.append_eq_nil_iff.1 hnil
      obtain rfl := Base.mapM_digit?_nil.1 hvs
      cases hlt
    rw [digitsValue, if_neg hne, digitsFrom_excess hvs (Nat.zero_le limit) hlt]

/-- It is decided where the digits end that the text begins with. -/
theorem outcome_digitsValue (b : Base) (limit : Nat) (ds : List Char) :
    Outcome b limit ds (digitsValue b limit ds) := by
  have hexists : ∃ r, Outcome b limit ds r := by
    obtain ⟨n, h | ⟨front, c, back, rfl, h, hc⟩⟩ := exists_number b ds
    · by_cases hle : n ≤ limit
      · by_cases hne : ds = []
        · subst hne
          exact ⟨_, .empty⟩
        · exact ⟨_, .value hne h hle⟩
      · exact ⟨_, .beyond h (Nat.lt_of_not_le hle)⟩
    · by_cases hle : n ≤ limit
      · exact ⟨_, .stray h hle hc⟩
      · exact ⟨_, .excess h (Nat.lt_of_not_le hle)⟩
  obtain ⟨r, hr⟩ := hexists
  rwa [hr.eq]

theorem digitsValue_eq_iff {r : Except LiteralError Nat} :
    digitsValue b limit ds = r ↔ Outcome b limit ds r := by
  constructor
  · rintro rfl
    exact outcome_digitsValue b limit ds
  · exact Outcome.eq

theorem digitsValue_ok (h : digitsValue b limit ds = .ok v) :
    ds ≠ [] ∧ b.number? ds = some v ∧ v ≤ limit := by
  generalize hr : Except.ok v = r at h
  cases digitsValue_eq_iff.1 h with
  | value hne hnumber hle =>
    cases hr
    exact ⟨hne, hnumber, hle⟩
  | _ => cases hr

theorem digitsValue_of_number? (hne : ds ≠ []) (h : b.number? ds = some v) :
    digitsValue b limit ds = if v ≤ limit then .ok v else .error .overflow := by
  by_cases hle : v ≤ limit
  · rw [if_pos hle]
    exact (Outcome.value hne h hle).eq
  · rw [if_neg hle]
    exact (Outcome.beyond h (Nat.lt_of_not_le hle)).eq

theorem exists_number_of_digits (h : ∀ c ∈ ds, c ∈ b.digits.toList) :
    ∃ n, b.number? ds = some n := by
  obtain ⟨n, hn | ⟨front, c, back, rfl, -, hc⟩⟩ := exists_number b ds
  · exact ⟨n, hn⟩
  · exact absurd (h c (by simp)) hc

/-! ## The digits of an integer -/

/-- Without its lead the literal `cs` is the digits `ds` in base `b`.  A zero that is all of it is
a digit of base ten. -/
inductive Bare : List Char → Base → List Char → Prop where
  | marked {b : Base} {l : Char} {ds : List Char} (hl : l ∈ b.letters.toList) :
    Bare ('0' :: l :: ds) b ds
  | octal {c : Char} {ds : List Char} (hc : ∀ b : Base, c ∉ b.letters.toList) :
    Bare ('0' :: c :: ds) .octal (c :: ds)
  | decimal {ds : List Char} (h : ds.head? = some '0' → ds = ['0']) : Bare ds .decimal ds

theorem Bare.eq {cs : List Char} (h : Bare cs b ds) : integerDigits cs = (b, ds) := by
  cases h with
  | @marked b l ds hl =>
    have hletter := Base.ofLetter?_iff.2 hl
    unfold integerDigits
    rw [if_neg (by simp), Lead.read_marked (by rw [hletter]; rfl)]
    simp [Lead.base, Lead.text, hletter]
  | @octal c ds hc =>
    have hletter : (Base.ofLetter? c).isSome = false := by
      cases ho : Base.ofLetter? c with
      | none => rfl
      | some b => exact absurd (Base.ofLetter?_iff.1 ho) (hc b)
    have hread : Lead.read ('0' :: c :: ds) = .zero :=
      Lead.read_zero (by rintro d ⟨⟩; exact hletter)
    unfold integerDigits
    rw [if_neg (by simp), hread]
    rfl
  | decimal h =>
    unfold integerDigits
    by_cases hzero : ds = ['0']
    · rw [if_pos hzero]
    · have hread : Lead.read ds = .plain := by
        refine Lead.read_plain fun c hc => ?_
        have hne : c ≠ '0' := by
          rintro rfl
          exact hzero (h hc)
        simpa using hne
      rw [if_neg hzero, hread]
      rfl

theorem exists_bare (cs : List Char) : ∃ b ds, Bare cs b ds := by
  by_cases h : cs.head? = some '0' → cs = ['0']
  · exact ⟨.decimal, cs, .decimal h⟩
  · obtain ⟨hhead, hne⟩ := Classical.not_imp.1 h
    cases cs with
    | nil => cases hhead
    | cons d cs =>
      cases hhead
      cases cs with
      | nil => exact absurd rfl hne
      | cons c cs =>
        by_cases hc : ∃ b : Base, c ∈ b.letters.toList
        · obtain ⟨b, hb⟩ := hc
          exact ⟨b, cs, .marked hb⟩
        · exact ⟨.octal, c :: cs, .octal fun b hb => hc ⟨b, hb⟩⟩

theorem integerValue_eq_iff {w : String} (h : Bare (withoutSeparators w.toList) b ds)
    {r : Except LiteralError Nat} : integerValue w = r ↔ Outcome b maxInteger ds r := by
  have hvalue : integerValue w = digitsValue b maxInteger ds := by
    unfold integerValue
    rw [h.eq]
  rw [hvalue, digitsValue_eq_iff]

/-- The errors of the literal `w`, which has the digits `ds` in base `b`, are told apart: only
digits of the base can be too many, and what has other runes or none at all is malformed. -/
def ToldApart (w : String) (b : Base) (ds : List Char) : Prop :=
  (integerValue w = .error .overflow →
    ds ≠ [] ∧ ∃ n, b.number? ds = some n ∧ maxInteger < n) ∧
  (ds = [] ∨ (∃ c ∈ ds, c ∉ b.digits.toList) → integerValue w = .error .malformed)

/-- They are, unless the digits in front of the first rune that is none are too many. -/
theorem toldApart_iff {w : String} (h : Bare (withoutSeparators w.toList) b ds) :
    ToldApart w b ds ↔ ¬ ∃ front c back n, ds = front ++ c :: back ∧ b.number? front = some n ∧
      maxInteger < n ∧ c ∉ b.digits.toList := by
  constructor
  · rintro ⟨-, hmalformed⟩ ⟨front, c, back, n, rfl, hn, hlt, hc⟩
    have hoverflow := (integerValue_eq_iff h).2 (.excess hn hlt)
    rw [hmalformed (Or.inr ⟨c, by simp, hc⟩)] at hoverflow
    cases hoverflow
  · intro hno
    obtain ⟨n, hn | ⟨front, c, back, rfl, hn, hc⟩⟩ := exists_number b ds
    · refine ⟨fun hoverflow => ?_, ?_⟩
      · have hne : ds ≠ [] := by
          rintro rfl
          rw [(integerValue_eq_iff h).2 .empty] at hoverflow
          cases hoverflow
        refine ⟨hne, n, hn, Nat.lt_of_not_le fun hle => ?_⟩
        rw [(integerValue_eq_iff h).2 (.value hne hn hle)] at hoverflow
        cases hoverflow
      · rintro (rfl | ⟨c, hc, hstray⟩)
        · exact (integerValue_eq_iff h).2 .empty
        · exact absurd (mem_digits_of_number? hn c hc) hstray
    · have hle : n ≤ maxInteger :=
        Nat.le_of_not_lt fun hlt => hno ⟨front, c, back, n, rfl, hn, hlt, hc⟩
      have hmalformed := (integerValue_eq_iff h).2 (.stray hn hle hc)
      refine ⟨fun hoverflow => ?_, fun _ => hmalformed⟩
      rw [hmalformed] at hoverflow
      cases hoverflow

/-- The class of an error is decided by the front of the digits.  So the errors of a literal are
told apart, unless too many digits are followed by what is none. -/
theorem integerValue_outcome (w : String) : ∃ b ds, Bare (withoutSeparators w.toList) b ds ∧
    (∀ b' ds', Bare (withoutSeparators w.toList) b' ds' → b' = b ∧ ds' = ds) ∧
    (∀ r, integerValue w = r ↔ Outcome b maxInteger ds r) ∧
    (ToldApart w b ds ↔ ¬ ∃ front c back n, ds = front ++ c :: back ∧
      b.number? front = some n ∧ maxInteger < n ∧ c ∉ b.digits.toList) := by
  obtain ⟨b, ds, h⟩ := exists_bare (withoutSeparators w.toList)
  refine ⟨b, ds, h, fun b' ds' h' => ?_, fun r => integerValue_eq_iff h, toldApart_iff h⟩
  have heq := h'.eq.symm.trans h.eq
  exact ⟨(Prod.mk.inj heq).1, (Prod.mk.inj heq).2⟩

/-- A literal in base eight with a nine behind too many digits is reported as too large. -/
theorem exists_not_toldApart : ¬ ∀ w b ds, Bare (withoutSeparators w.toList) b ds →
    ToldApart w b ds := by
  intro h
  have hdigits : withoutSeparators "077777777777777777777779".toList =
      '0' :: '7' :: "7777777777777777777779".toList := by
    decide
  have hbare : Bare (withoutSeparators "077777777777777777777779".toList) .octal
      ('7' :: "7777777777777777777779".toList) := by
    rw [hdigits]
    exact .octal fun b => by cases b <;> decide
  have hmalformed := (h _ _ _ hbare).2 (Or.inr ⟨'9', by decide⟩)
  revert hmalformed
  decide

end Literal
end FrontEnd
