import FrontEnd.Proofs.Literal.Parts

/-!
# Separators between digits

The search for a misplaced separator goes over the whole text of a numeral.  It finds none
exactly if each part is right by itself: there is at most one separator in front of a digit,
none at the end of a part, and none at its beginning but behind the letter of a base.
-/

namespace FrontEnd

variable {p q : Char → Prop} {c : Char} {cs : List Char}

/-- Digits with at most one separator in front of each. -/
inductive Separated (p : Char → Prop) : List Char → Prop where
  | nil : Separated p []
  | digit {c : Char} {cs : List Char} (hc : p c) (h : Separated p cs) : Separated p (c :: cs)
  | separator {c : Char} {cs : List Char} (hc : p c) (h : Separated p cs) :
    Separated p ('_' :: c :: cs)

def IsRun (p : Char → Prop) (cs : List Char) : Prop :=
  ∃ c ds, cs = c :: ds ∧ p c ∧ Separated p ds

theorem isRun_cons : IsRun p (c :: cs) ↔ p c ∧ Separated p cs := by
  constructor
  · rintro ⟨d, ds, hcs, hd, hds⟩
    cases hcs
    exact ⟨hd, hds⟩
  · exact fun h => ⟨c, cs, rfl, h⟩

theorem IsRun.ne_nil (h : IsRun p cs) : cs ≠ [] := by
  rintro rfl
  obtain ⟨c, ds, hcs, -⟩ := h
  cases hcs

theorem IsRun.separated (h : IsRun p cs) : Separated p cs := by
  obtain ⟨c, ds, rfl, hc, hds⟩ := h
  exact .digit hc hds

theorem separated_separator (hp : ¬ p '_') : Separated p ('_' :: cs) ↔ IsRun p cs := by
  constructor
  · intro h
    cases h with
    | digit hc h => exact absurd hc hp
    | separator hc h => exact ⟨_, _, rfl, hc, h⟩
  · rintro ⟨c, ds, rfl, hc, hds⟩
    exact .separator hc hds

theorem separated_digit (hc : c ≠ '_') : Separated p (c :: cs) ↔ p c ∧ Separated p cs := by
  constructor
  · intro h
    cases h with
    | digit hc h => exact ⟨hc, h⟩
    | separator => exact absurd rfl hc
  · exact fun h => .digit h.1 h.2

/-- It is enough to look at the digits that are there. -/
theorem Separated.imp (h : Separated p cs) (hpq : ∀ c ∈ cs, p c → q c) : Separated q cs := by
  induction h with
  | nil => exact .nil
  | digit hc h ih =>
    obtain ⟨hfirst, hrest⟩ := List.forall_mem_cons.1 hpq
    exact .digit (hfirst hc) (ih hrest)
  | separator hc h ih =>
    obtain ⟨hfirst, hrest⟩ := List.forall_mem_cons.1 (List.forall_mem_cons.1 hpq).2
    exact .separator (hfirst hc) (ih hrest)

theorem IsRun.imp (h : IsRun p cs) (hpq : ∀ c ∈ cs, p c → q c) : IsRun q cs := by
  obtain ⟨c, ds, rfl, hc, hds⟩ := h
  obtain ⟨hfirst, hrest⟩ := List.forall_mem_cons.1 hpq
  exact ⟨c, ds, rfl, hfirst hc, hds.imp hrest⟩

theorem Separated.mem (h : Separated p cs) : ∀ c ∈ cs, c = '_' ∨ p c := by
  induction h with
  | nil => exact List.forall_mem_nil _
  | digit hc h ih => exact List.forall_mem_cons.2 ⟨Or.inr hc, ih⟩
  | separator hc h ih =>
    exact List.forall_mem_cons.2 ⟨Or.inl rfl, List.forall_mem_cons.2 ⟨Or.inr hc, ih⟩⟩

/-- Separated digits are none at all, or there is a digit. -/
theorem Separated.hasDigit (h : Separated p cs) (hp : ¬ p '_') (hne : cs ≠ []) :
    Numeral.hasDigit cs = true := by
  have hdigit : ∀ {c : Char}, p c → c ≠ '_' := by
    rintro c hc rfl
    exact hp hc
  cases h with
  | nil => exact absurd rfl hne
  | digit hc h => simp [Numeral.hasDigit, hdigit hc]
  | separator hc h => simp [Numeral.hasDigit, hdigit hc]

theorem IsRun.hasDigit (h : IsRun p cs) (hp : ¬ p '_') : Numeral.hasDigit cs = true :=
  h.separated.hasDigit hp h.ne_nil

theorem ne_nil_of_hasDigit (h : Numeral.hasDigit cs = true) : cs ≠ [] := by
  rintro rfl
  cases h

section Runs

variable {b : Base}

theorem inRun_iff : inRun b c = true ↔ c = '_' ∨ b.takes c = true := by
  simp [inRun]

theorem inRun_eq_false : inRun b c = false ↔ c ≠ '_' ∧ b.takes c = false := by
  simp [inRun]

theorem inRun_of_decimal (h : inRun .decimal c = true) : inRun b c = true := by
  rw [inRun_iff] at h ⊢
  refine h.imp_right fun hd => ?_
  cases b with
  | hexadecimal => exact of_isDigit isHexDigit (by decide) hd
  | _ => exact hd

theorem Base.takes_separator (b : Base) : ¬ (b.takes '_' = true) := by
  cases b <;> decide

end Runs

namespace Separator

section Search

variable {b : Base} {run rest : List Char} {i : Nat}

theorem search_other_cons (hc : inRun b c = false) :
    search b.takes .other i (c :: cs) = search b.takes .other (i + 1) cs := by
  obtain ⟨hsep, hd⟩ := inRun_eq_false.1 hc
  simp [search, hsep, hd]

/-- In front of a rune that is no separator a digit makes no difference. -/
theorem search_digit_eq_other (h : ∀ c, rest.head? = some c → inRun b c = false) :
    search b.takes .digit i rest = search b.takes .other i rest := by
  cases rest with
  | nil => rfl
  | cons c cs =>
    have hc := (inRun_eq_false.1 (h c rfl)).1
    simp [search, hc]

variable (hrun : ∀ c ∈ run, inRun b c = true)
  (hrest : ∀ c, rest.head? = some c → inRun b c = false)

include hrun hrest

/-- Behind a digit digits may go on with a separator, behind a separator they may not. -/
theorem search_behind :
    (search b.takes .digit i (run ++ rest) = none ↔
      Separated (b.takes ·) run ∧ search b.takes .other (i + run.length) rest = none) ∧
    (search b.takes .separator i (run ++ rest) = none ↔
      IsRun (b.takes ·) run ∧ search b.takes .other (i + run.length) rest = none) := by
  have hp := b.takes_separator
  induction run generalizing i with
  | nil =>
    constructor
    · rw [List.nil_append, search_digit_eq_other hrest]
      exact ⟨fun h => ⟨.nil, h⟩, And.right⟩
    · refine ⟨fun h => ?_, fun h => absurd rfl h.1.ne_nil⟩
      cases rest with
      | nil => cases h
      | cons c cs =>
        obtain ⟨hc, hd⟩ := inRun_eq_false.1 (hrest c rfl)
        simp [search, hc, hd] at h
  | cons c run ih =>
    obtain ⟨hc, hrun⟩ := List.forall_mem_cons.1 hrun
    obtain ⟨hdigit, hseparator⟩ := ih hrun (i := i + 1)
    have hlen : i + (c :: run).length = i + 1 + run.length := by
      rw [List.length_cons]
      omega
    rw [hlen]
    by_cases hsep : c = '_'
    · subst hsep
      constructor
      · rw [separated_separator hp, ← hseparator]
        simp [search]
      · rw [isRun_cons]
        simp [search, hp]
    · have hd : b.takes c = true := (inRun_iff.1 hc).resolve_left hsep
      constructor
      · rw [separated_digit hsep, and_assoc, ← hdigit]
        simp [search, hsep, hd]
      · rw [isRun_cons, and_assoc, ← hdigit]
        simp [search, hsep, hd]

/-- Behind what is neither, digits begin with a digit. -/
theorem search_other : search b.takes .other i (run ++ rest) = none ↔
    (run = [] ∨ IsRun (b.takes ·) run) ∧
      search b.takes .other (i + run.length) rest = none := by
  cases run with
  | nil => simp
  | cons c run =>
    obtain ⟨hc, hrun⟩ := List.forall_mem_cons.1 hrun
    have hlen : i + (c :: run).length = i + 1 + run.length := by
      rw [List.length_cons]
      omega
    rw [hlen, isRun_cons, or_iff_right (List.cons_ne_nil c run)]
    by_cases hsep : c = '_'
    · subst hsep
      simp [search, b.takes_separator]
    · have hd : b.takes c = true := (inRun_iff.1 hc).resolve_left hsep
      rw [and_assoc, ← (search_behind hrun hrest).1]
      simp [search, hsep, hd]

end Search

theorem misplaced?_marked {l : Char} {b : Base} (h : Base.ofLetter? l = some b)
    (cs : List Char) : misplaced? ('0' :: l :: cs) = search b.takes .digit 2 cs := by
  simp [misplaced?, h]

theorem misplaced?_unmarked (h : (Lead.read cs).isMarked = false) :
    misplaced? cs = search Char.isDigit .other 0 cs := by
  unfold misplaced?
  split
  · next c cs =>
    split
    · next b hb =>
      rw [Lead.read_marked (by rw [hb]; rfl)] at h
      cases h
    · rfl
  · rfl

end Separator

namespace Numeral

variable {n : Numeral}

/-- The digits before the point, which behind the letter of a base may begin with a
separator. -/
def IsWhole (n : Numeral) : Prop :=
  if n.lead.isMarked then Separated (n.base.takes ·) n.whole
  else IsRun (n.base.takes ·) (n.lead.text ++ n.whole)

theorem isWhole_marked (h : n.lead.isMarked = true) :
    n.IsWhole ↔ Separated (n.base.takes ·) n.whole := by
  unfold IsWhole
  rw [if_pos h]

theorem isWhole_unmarked (h : n.lead.isMarked = false) :
    n.IsWhole ↔ IsRun (n.base.takes ·) (n.lead.text ++ n.whole) := by
  unfold IsWhole
  rw [h]
  rfl

/-- The separators stand between digits, in each part. -/
structure IsSeparated (n : Numeral) : Prop where
  whole : n.IsWhole
  fraction : ∀ ds ∈ n.fraction, ds = [] ∨ IsRun (n.base.takes ·) ds
  exponent : ∀ e ∈ n.exponent, e.digits = [] ∨ IsRun (n.base.takes ·) e.digits

theorem inRun_mark (b : Base) : inRun b 'i' = false := by
  cases b <;> rfl

theorem inRun_point (b : Base) : inRun b '.' = false := by
  cases b <;> rfl

/-- A numeral begins with the letter of its base or with a decimal digit. -/
theorem Formed.lead_cases (h : n.Formed) :
    (∃ l, n.lead = .marked l ∧ Base.ofLetter? l = some n.base) ∨
      n.lead.isMarked = false ∧ n.base ≠ .hexadecimal ∧ n.lead.text ++ n.whole ≠ [] ∧
        ∀ c ∈ n.lead.text ++ n.whole, inRun n.base c = true := by
  have hwhole := h.whole
  unfold base at hwhole ⊢
  cases hl : n.lead with
  | plain =>
    obtain ⟨c, cs, hw, -⟩ := h.plain hl
    rw [hl] at hwhole
    exact Or.inr ⟨rfl, nofun, by rw [hw]; exact List.cons_ne_nil c cs, hwhole⟩
  | zero =>
    rw [hl] at hwhole
    exact Or.inr ⟨rfl, nofun, List.cons_ne_nil _ _, List.forall_mem_cons.2 ⟨rfl, hwhole⟩⟩
  | marked l =>
    obtain ⟨b, hb⟩ := Option.isSome_iff_exists.1 (h.lead l hl)
    exact Or.inl ⟨l, rfl, by simp [Lead.base, hb]⟩

section Parts

variable (h : n.Formed) (hm : ∀ e ∈ n.exponent, inRun n.base e.marker = false) {i : Nat}

include h hm

theorem Formed.search_ending : Separator.search n.base.takes .other i n.ending = none ↔
    ∀ e ∈ n.exponent, e.digits = [] ∨ IsRun (n.base.takes ·) e.digits := by
  have hmark : ∀ i, Separator.search n.base.takes .other i (imaginaryMark n.imaginary) = none := by
    intro i
    cases n.imaginary with
    | false => rfl
    | true => exact Separator.search_other_cons (inRun_mark n.base)
  unfold ending
  cases he : n.exponent with
  | none => simpa using hmark i
  | some e =>
    have hdigits : ∀ c ∈ e.digits, inRun n.base c = true := fun c hc =>
      inRun_of_decimal ((h.exponent e he).digits c hc)
    have hrest : ∀ c, (imaginaryMark n.imaginary).head? = some c → inRun n.base c = false := by
      intro c hc
      have hi : c = 'i' := by
        cases hn : n.imaginary <;> rw [hn] at hc <;> cases hc
        rfl
      exact hi ▸ inRun_mark n.base
    have hrun : ∀ i, Separator.search n.base.takes .other i
        (e.digits ++ imaginaryMark n.imaginary) = none ↔
          e.digits = [] ∨ IsRun (n.base.takes ·) e.digits := by
      intro i
      rw [Separator.search_other hdigits hrest, hmark]
      exact and_iff_left rfl
    simp only [Option.mem_def, Option.some.injEq, forall_eq', Option.elim_some, Exponent.text,
      List.cons_append, List.append_assoc]
    rw [Separator.search_other_cons (hm e he)]
    cases hs : e.sign with
    | none => exact hrun _
    | some c =>
      have hc : inRun n.base c = false := by
        rcases (h.exponent e he).sign c hs with rfl | rfl <;> cases n.base <;> rfl
      show Separator.search n.base.takes .other _ (c :: (e.digits ++ _)) = none ↔ _
      rw [Separator.search_other_cons hc]
      exact hrun _

theorem Formed.search_pointed :
    Separator.search n.base.takes .other i (pointed n.fraction ++ n.ending) = none ↔
      (∀ ds ∈ n.fraction, ds = [] ∨ IsRun (n.base.takes ·) ds) ∧
        ∀ e ∈ n.exponent, e.digits = [] ∨ IsRun (n.base.takes ·) e.digits := by
  cases hf : n.fraction with
  | none =>
    rw [pointed, List.nil_append, h.search_ending hm]
    simp
  | some ds =>
    have hrest := head_ending hm (inRun_mark n.base)
    rw [pointed, List.cons_append, Separator.search_other_cons (inRun_point n.base),
      Separator.search_other (h.fraction ds hf) hrest, h.search_ending hm]
    simp

theorem Formed.misplaced?_eq_none : Separator.misplaced? n.text = none ↔ n.IsSeparated := by
  have hrest := head_pointed (f := n.fraction) (inRun_point n.base)
    (head_ending hm (inRun_mark n.base))
  have hparts : Separator.misplaced? n.text = none ↔ n.IsWhole ∧
      (∀ ds ∈ n.fraction, ds = [] ∨ IsRun (n.base.takes ·) ds) ∧
        ∀ e ∈ n.exponent, e.digits = [] ∨ IsRun (n.base.takes ·) e.digits := by
    rcases h.lead_cases with ⟨l, hl, hb⟩ | ⟨hl, hbase, hne, hwhole⟩
    · have htext : n.text = '0' :: l :: (n.whole ++ (pointed n.fraction ++ n.ending)) := by
        rw [text_eq, hl]
        rfl
      have hmarked : n.lead.isMarked = true := by
        rw [hl]
        rfl
      rw [isWhole_marked hmarked, htext, Separator.misplaced?_marked hb,
        (Separator.search_behind h.whole hrest).1, h.search_pointed hm]
    · have hread : (Lead.read n.text).isMarked = false := by rw [h.lead_read, hl]
      rw [isWhole_unmarked hl, Separator.misplaced?_unmarked hread,
        ← Base.takes_eq_isDigit hbase, text_eq, ← List.append_assoc,
        Separator.search_other hwhole hrest, h.search_pointed hm, or_iff_right hne]
  rw [hparts]
  exact ⟨fun ⟨hw, hf, he⟩ => ⟨hw, hf, he⟩, fun hs => ⟨hs.whole, hs.fraction, hs.exponent⟩⟩

end Parts

end Numeral
end FrontEnd
