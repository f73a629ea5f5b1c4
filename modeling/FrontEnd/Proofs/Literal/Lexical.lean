import FrontEnd.Proofs.Literal.Separation
import Mathlib.Computability.RegularExpressions

/-!
# Numerals as regular expressions

The languages of integers and floats, and what a text in one of them consists of.
-/

namespace FrontEnd

namespace Base

def digits : Base → String
  | binary => "01"
  | octal => "01234567"
  | decimal => "0123456789"
  | hexadecimal => "0123456789abcdefABCDEF"

def letters : Base → String
  | binary => "bB"
  | octal => "oO"
  | decimal => ""
  | hexadecimal => "xX"

end Base

structure Exponent.Suits (s : String) (e : Exponent) : Prop where
  marker : e.marker ∈ s.toList
  sign : ∀ c ∈ e.sign, c = '+' ∨ c = '-'
  digits : IsRun (· ∈ Base.decimal.digits.toList) e.digits

namespace Lexical

open RegularExpression

def oneOf (s : String) : RegularExpression Char :=
  (s.toList.map char).sum

def optional (r : RegularExpression Char) : RegularExpression Char :=
  1 + r

/-- `_?d` -/
def next (b : Base) : RegularExpression Char :=
  optional (char '_') * oneOf b.digits

/-- `(_?d)*` -/
def tail (b : Base) : RegularExpression Char :=
  star (next b)

/-- `(_?d)+` -/
def more (b : Base) : RegularExpression Char :=
  next b * star (next b)

/-- `d(_?d)*` -/
def run (b : Base) : RegularExpression Char :=
  oneOf b.digits * star (next b)

/-- An exponent with one of the letters `s`, such as `[eE][+-]?[0-9](_?[0-9])*`. -/
def exponent (s : String) : RegularExpression Char :=
  oneOf s * optional (oneOf "+-") * run .decimal

/-- `0` and a letter of the base, such as `0[xX]`. -/
def mark (b : Base) : RegularExpression Char :=
  char '0' * oneOf b.letters

/-- `[1-9](_?[0-9])*`, `0(_?[0-7])*`, `0[xX](_?[0-9a-fA-F])+`, `0[oO](_?[0-7])+` or
`0[bB](_?[01])+` -/
def integer : RegularExpression Char :=
  oneOf "123456789" * tail .decimal + char '0' * tail .octal +
    mark .hexadecimal * more .hexadecimal + mark .octal * more .octal +
    mark .binary * more .binary

/-- With `dec` for `[0-9](_?[0-9])*`, `exp` for `[eE][+-]?dec`, `hex` for `[0-9a-fA-F]` and
`run` for `hex(_?hex)*`: `dec.dec?exp?`, `dec exp` or
`0[xX]((_?hex)+(.run?)?|.run)[pP][+-]?dec` -/
def float : RegularExpression Char :=
  run .decimal * (char '.' * optional (run .decimal)) * optional (exponent "eE") +
    run .decimal * exponent "eE" +
    mark .hexadecimal * (more .hexadecimal * optional (char '.' * optional (run .hexadecimal)) +
      char '.' * run .hexadecimal) * exponent "pP"

variable {s : String} {b : Base} {r : RegularExpression Char} {w : List Char}

theorem mem_oneOf : w ∈ (oneOf s).matches' ↔ ∃ c ∈ s.toList, w = [c] := by
  unfold oneOf
  induction s.toList with
  | nil => simp
  | cons c cs ih =>
    rw [List.map_cons, List.sum_cons, matches'_add, Language.mem_add, ih]
    simp only [List.mem_cons, exists_eq_or_imp]
    rfl

theorem mem_optional : w ∈ (optional r).matches' ↔ w = [] ∨ w ∈ r.matches' := by
  rw [optional, matches'_add, Language.mem_add, matches'_epsilon, Language.mem_one]

theorem mem_next : w ∈ (next b).matches' ↔ ∃ c ∈ b.digits.toList, w = [c] ∨ w = ['_', c] := by
  rw [next, matches'_mul, Language.mem_mul]
  constructor
  · rintro ⟨as, has, bs, hbs, rfl⟩
    obtain ⟨c, hc, rfl⟩ := mem_oneOf.1 hbs
    rcases mem_optional.1 has with rfl | rfl
    · exact ⟨c, hc, Or.inl rfl⟩
    · exact ⟨c, hc, Or.inr rfl⟩
  · rintro ⟨c, hc, rfl | rfl⟩
    · exact ⟨[], mem_optional.2 (Or.inl rfl), [c], mem_oneOf.2 ⟨c, hc, rfl⟩, rfl⟩
    · exact ⟨['_'], mem_optional.2 (Or.inr rfl), [c], mem_oneOf.2 ⟨c, hc, rfl⟩, rfl⟩

theorem mem_tail : w ∈ (tail b).matches' ↔ Separated (· ∈ b.digits.toList) w := by
  rw [tail, matches'_star, Language.mem_kstar]
  constructor
  · rintro ⟨ws, rfl, hws⟩
    induction ws with
    | nil => exact .nil
    | cons v ws ih =>
      obtain ⟨hfirst, hrest⟩ := List.forall_mem_cons.1 hws
      obtain ⟨c, hc, rfl | rfl⟩ := mem_next.1 hfirst
      · exact .digit hc (ih hrest)
      · exact .separator hc (ih hrest)
  · intro h
    induction h with
    | nil => exact ⟨[], rfl, List.forall_mem_nil _⟩
    | digit hc h ih =>
      obtain ⟨ws, rfl, hws⟩ := ih
      exact ⟨_ :: ws, rfl, List.forall_mem_cons.2 ⟨mem_next.2 ⟨_, hc, Or.inl rfl⟩, hws⟩⟩
    | separator hc h ih =>
      obtain ⟨ws, rfl, hws⟩ := ih
      exact ⟨_ :: ws, rfl, List.forall_mem_cons.2 ⟨mem_next.2 ⟨_, hc, Or.inr rfl⟩, hws⟩⟩

theorem mem_more :
    w ∈ (more b).matches' ↔ Separated (· ∈ b.digits.toList) w ∧ w ≠ [] := by
  rw [more, matches'_mul, Language.mem_mul]
  constructor
  · rintro ⟨as, has, bs, hbs, rfl⟩
    obtain ⟨c, hc, rfl | rfl⟩ := mem_next.1 has
    · exact ⟨.digit hc (mem_tail.1 hbs), List.cons_ne_nil _ _⟩
    · exact ⟨.separator hc (mem_tail.1 hbs), List.cons_ne_nil _ _⟩
  · rintro ⟨h, hne⟩
    cases h with
    | nil => exact absurd rfl hne
    | digit hc h => exact ⟨_, mem_next.2 ⟨_, hc, Or.inl rfl⟩, _, mem_tail.2 h, rfl⟩
    | separator hc h => exact ⟨_, mem_next.2 ⟨_, hc, Or.inr rfl⟩, _, mem_tail.2 h, rfl⟩

theorem mem_run : w ∈ (run b).matches' ↔ IsRun (· ∈ b.digits.toList) w := by
  rw [run, matches'_mul, Language.mem_mul]
  constructor
  · rintro ⟨as, has, bs, hbs, rfl⟩
    obtain ⟨c, hc, rfl⟩ := mem_oneOf.1 has
    exact ⟨c, bs, rfl, hc, mem_tail.1 hbs⟩
  · rintro ⟨c, cs, rfl, hc, hcs⟩
    exact ⟨[c], mem_oneOf.2 ⟨c, hc, rfl⟩, cs, mem_tail.2 hcs, rfl⟩

theorem mem_exponent :
    w ∈ (exponent s).matches' ↔ ∃ e : Exponent, e.Suits s ∧ w = e.text := by
  rw [exponent, matches'_mul, matches'_mul]
  simp only [Language.mem_mul]
  constructor
  · rintro ⟨_, ⟨as, has, bs, hbs, rfl⟩, ds, hds, rfl⟩
    obtain ⟨m, hm, rfl⟩ := mem_oneOf.1 has
    rcases mem_optional.1 hbs with rfl | hbs
    · exact ⟨⟨m, none, ds⟩, ⟨hm, nofun, mem_run.1 hds⟩, rfl⟩
    · obtain ⟨c, hc, rfl⟩ := mem_oneOf.1 hbs
      refine ⟨⟨m, some c, ds⟩, ⟨hm, ?_, mem_run.1 hds⟩, rfl⟩
      rintro d ⟨⟩
      simpa using hc
  · rintro ⟨⟨m, sign, ds⟩, ⟨hm, hsign, hds⟩, rfl⟩
    refine ⟨m :: sign.toList, ⟨[m], mem_oneOf.2 ⟨m, hm, rfl⟩, sign.toList, ?_, rfl⟩, ds,
      mem_run.2 hds, rfl⟩
    cases sign with
    | none => exact mem_optional.2 (Or.inl rfl)
    | some c =>
      have hc : c ∈ "+-".toList := by simpa using hsign c rfl
      exact mem_optional.2 (Or.inr (mem_oneOf.2 ⟨c, hc, rfl⟩))

theorem mem_mark : w ∈ (mark b).matches' ↔ ∃ l ∈ b.letters.toList, w = ['0', l] := by
  rw [mark, matches'_mul, Language.mem_mul]
  constructor
  · rintro ⟨as, rfl, bs, hbs, rfl⟩
    obtain ⟨l, hl, rfl⟩ := mem_oneOf.1 hbs
    exact ⟨l, hl, rfl⟩
  · rintro ⟨l, hl, rfl⟩
    exact ⟨['0'], rfl, [l], mem_oneOf.2 ⟨l, hl, rfl⟩, rfl⟩

theorem mem_mul {r' : RegularExpression Char} :
    w ∈ (r * r').matches' ↔ ∃ as ∈ r.matches', ∃ bs ∈ r'.matches', as ++ bs = w := by
  rw [matches'_mul, Language.mem_mul]

theorem mem_add {r' : RegularExpression Char} :
    w ∈ (r + r').matches' ↔ w ∈ r.matches' ∨ w ∈ r'.matches' := by
  rw [matches'_add, Language.mem_add]

theorem mem_marked : w ∈ (mark b * more b).matches' ↔ ∃ l cs, l ∈ b.letters.toList ∧
    Separated (· ∈ b.digits.toList) cs ∧ cs ≠ [] ∧ w = '0' :: l :: cs := by
  rw [mem_mul]
  constructor
  · rintro ⟨as, has, bs, hbs, rfl⟩
    obtain ⟨l, hl, rfl⟩ := mem_mark.1 has
    obtain ⟨hcs, hne⟩ := mem_more.1 hbs
    exact ⟨l, bs, hl, hcs, hne, rfl⟩
  · rintro ⟨l, cs, hl, hcs, hne, rfl⟩
    exact ⟨['0', l], mem_mark.2 ⟨l, hl, rfl⟩, cs, mem_more.2 ⟨hcs, hne⟩, rfl⟩

theorem mem_integer : w ∈ integer.matches' ↔
    (∃ c cs, c ∈ "123456789".toList ∧ Separated (· ∈ Base.decimal.digits.toList) cs ∧
      w = c :: cs) ∨
    (∃ cs, Separated (· ∈ Base.octal.digits.toList) cs ∧ w = '0' :: cs) ∨
    ∃ b l cs, l ∈ (Base.letters b).toList ∧ Separated (· ∈ b.digits.toList) cs ∧ cs ≠ [] ∧
      w = '0' :: l :: cs := by
  unfold integer
  rw [mem_add, mem_add, mem_add, mem_add, mem_marked, mem_marked, mem_marked]
  constructor
  · rintro ((((h | h) | h) | h) | h)
    · obtain ⟨as, has, bs, hbs, rfl⟩ := mem_mul.1 h
      obtain ⟨c, hc, rfl⟩ := mem_oneOf.1 has
      exact Or.inl ⟨c, bs, hc, mem_tail.1 hbs, rfl⟩
    · obtain ⟨as, rfl, bs, hbs, rfl⟩ := mem_mul.1 h
      exact Or.inr (Or.inl ⟨bs, mem_tail.1 hbs, rfl⟩)
    all_goals exact Or.inr (Or.inr ⟨_, h⟩)
  · rintro (⟨c, cs, hc, hcs, rfl⟩ | ⟨cs, hcs, rfl⟩ | ⟨b, h⟩)
    · exact Or.inl (Or.inl (Or.inl (Or.inl (mem_mul.2
        ⟨[c], mem_oneOf.2 ⟨c, hc, rfl⟩, cs, mem_tail.2 hcs, rfl⟩))))
    · exact Or.inl (Or.inl (Or.inl (Or.inr (mem_mul.2 ⟨['0'], rfl, cs, mem_tail.2 hcs, rfl⟩))))
    · cases b with
      | binary => exact Or.inr h
      | octal => exact Or.inl (Or.inr h)
      | hexadecimal => exact Or.inl (Or.inl (Or.inr h))
      | decimal =>
        obtain ⟨l, cs, hl, -⟩ := h
        cases hl

theorem mem_fraction : w ∈ (char '.' * optional (run b)).matches' ↔
    ∃ ds, (ds = [] ∨ IsRun (· ∈ b.digits.toList) ds) ∧ w = '.' :: ds := by
  rw [mem_mul]
  constructor
  · rintro ⟨as, rfl, bs, hbs, rfl⟩
    exact ⟨bs, (mem_optional.1 hbs).imp_right mem_run.1, rfl⟩
  · rintro ⟨ds, hds, rfl⟩
    exact ⟨['.'], rfl, ds, mem_optional.2 (hds.imp_right mem_run.2), rfl⟩

/-- Digits, a point, perhaps more digits and perhaps an exponent. -/
theorem mem_decimal : w ∈ (run .decimal * (char '.' * optional (run .decimal)) *
      optional (exponent "eE")).matches' ↔
    ∃ (cs ds : List Char) (e? : Option Exponent), IsRun (· ∈ Base.decimal.digits.toList) cs ∧
      (ds = [] ∨ IsRun (· ∈ Base.decimal.digits.toList) ds) ∧ (∀ e ∈ e?, e.Suits "eE") ∧
      w = cs ++ ('.' :: ds ++ e?.elim [] Exponent.text) := by
  rw [mem_mul]
  constructor
  · rintro ⟨_, h, es, hes, rfl⟩
    obtain ⟨cs, hcs, fs, hfs, rfl⟩ := mem_mul.1 h
    obtain ⟨ds, hds, rfl⟩ := mem_fraction.1 hfs
    rcases mem_optional.1 hes with rfl | hes
    · refine ⟨cs, ds, none, mem_run.1 hcs, hds, nofun, ?_⟩
      rw [List.append_assoc]
      rfl
    · obtain ⟨e, he, rfl⟩ := mem_exponent.1 hes
      refine ⟨cs, ds, some e, mem_run.1 hcs, hds, ?_, List.append_assoc ..⟩
      rintro _ ⟨⟩
      exact he
  · rintro ⟨cs, ds, e?, hcs, hds, he, rfl⟩
    have hmantissa := mem_mul.2 ⟨cs, mem_run.2 hcs, _, mem_fraction.2 ⟨ds, hds, rfl⟩, rfl⟩
    refine ⟨_, hmantissa, e?.elim [] Exponent.text, ?_, List.append_assoc ..⟩
    cases e? with
    | none => exact mem_optional.2 (Or.inl rfl)
    | some e => exact mem_optional.2 (Or.inr (mem_exponent.2 ⟨e, he e rfl, rfl⟩))

theorem mem_scaled : w ∈ (run .decimal * exponent "eE").matches' ↔
    ∃ (cs : List Char) (e : Exponent), IsRun (· ∈ Base.decimal.digits.toList) cs ∧
      e.Suits "eE" ∧ w = cs ++ e.text := by
  rw [mem_mul]
  constructor
  · rintro ⟨cs, hcs, es, hes, rfl⟩
    obtain ⟨e, he, rfl⟩ := mem_exponent.1 hes
    exact ⟨cs, e, mem_run.1 hcs, he, rfl⟩
  · rintro ⟨cs, e, hcs, he, rfl⟩
    exact ⟨cs, mem_run.2 hcs, e.text, mem_exponent.2 ⟨e, he, rfl⟩, rfl⟩

/-- The digits around the point of a float in base sixteen. -/
theorem mem_mantissa : w ∈ (more b * optional (char '.' * optional (run b)) +
      char '.' * run b).matches' ↔
    ∃ (cs : List Char) (fraction : Option (List Char)), Separated (· ∈ b.digits.toList) cs ∧
      (cs ≠ [] ∨ ∃ ds ∈ fraction, ds ≠ []) ∧
      (∀ ds ∈ fraction, ds = [] ∨ IsRun (· ∈ b.digits.toList) ds) ∧
      w = cs ++ Numeral.pointed fraction := by
  rw [mem_add, mem_mul, mem_mul]
  constructor
  · rintro (⟨cs, hcs, fs, hfs, rfl⟩ | ⟨_, rfl, ds, hds, rfl⟩)
    · obtain ⟨hcs, hne⟩ := mem_more.1 hcs
      rcases mem_optional.1 hfs with rfl | hfs
      · exact ⟨cs, none, hcs, Or.inl hne, nofun, rfl⟩
      · obtain ⟨ds, hds, rfl⟩ := mem_fraction.1 hfs
        refine ⟨cs, some ds, hcs, Or.inl hne, ?_, rfl⟩
        rintro _ ⟨⟩
        exact hds
    · have hrun := mem_run.1 hds
      refine ⟨[], some ds, .nil, Or.inr ⟨ds, rfl, hrun.ne_nil⟩, ?_, rfl⟩
      rintro _ ⟨⟩
      exact Or.inr hrun
  · rintro ⟨cs, fraction, hcs, hany, hfraction, rfl⟩
    by_cases hne : cs = []
    · obtain ⟨ds, rfl, hds⟩ := hany.resolve_left (absurd hne)
      have hrun := (hfraction ds rfl).resolve_left hds
      subst hne
      exact Or.inr ⟨['.'], rfl, ds, mem_run.2 hrun, rfl⟩
    · refine Or.inl ⟨cs, mem_more.2 ⟨hcs, hne⟩, _, ?_, rfl⟩
      cases fraction with
      | none => exact mem_optional.2 (Or.inl rfl)
      | some ds => exact mem_optional.2 (Or.inr (mem_fraction.2 ⟨ds, hfraction ds rfl, rfl⟩))

theorem mem_marked_float : w ∈ (mark b * (more b * optional (char '.' * optional (run b)) +
      char '.' * run b) * exponent "pP").matches' ↔
    ∃ (l : Char) (cs : List Char) (fraction : Option (List Char)) (e : Exponent),
      l ∈ b.letters.toList ∧ Separated (· ∈ b.digits.toList) cs ∧
      (cs ≠ [] ∨ ∃ ds ∈ fraction, ds ≠ []) ∧
      (∀ ds ∈ fraction, ds = [] ∨ IsRun (· ∈ b.digits.toList) ds) ∧
      e.Suits "pP" ∧ w = '0' :: l :: (cs ++ (Numeral.pointed fraction ++ e.text)) := by
  rw [mem_mul]
  constructor
  · rintro ⟨_, h, es, hes, rfl⟩
    obtain ⟨as, has, ms, hms, rfl⟩ := mem_mul.1 h
    obtain ⟨l, hl, rfl⟩ := mem_mark.1 has
    obtain ⟨cs, fraction, hcs, hany, hfraction, rfl⟩ := mem_mantissa.1 hms
    obtain ⟨e, he, rfl⟩ := mem_exponent.1 hes
    exact ⟨l, cs, fraction, e, hl, hcs, hany, hfraction, he, by simp⟩
  · rintro ⟨l, cs, fraction, e, hl, hcs, hany, hfraction, he, rfl⟩
    have hmantissa := mem_mantissa.2 ⟨cs, fraction, hcs, hany, hfraction, rfl⟩
    exact ⟨_, mem_mul.2 ⟨['0', l], mem_mark.2 ⟨l, hl, rfl⟩, _, hmantissa, rfl⟩, e.text,
      mem_exponent.2 ⟨e, he, rfl⟩, by simp⟩

theorem mem_float : w ∈ float.matches' ↔
    (∃ (cs : List Char) (fraction : Option (List Char)) (exponent : Option Exponent),
      IsRun (· ∈ Base.decimal.digits.toList) cs ∧
      (∀ ds ∈ fraction, ds = [] ∨ IsRun (· ∈ Base.decimal.digits.toList) ds) ∧
      (∀ e ∈ exponent, e.Suits "eE") ∧ (fraction ≠ none ∨ exponent ≠ none) ∧
      w = cs ++ (Numeral.pointed fraction ++ exponent.elim [] Exponent.text)) ∨
    ∃ (l : Char) (cs : List Char) (fraction : Option (List Char)) (e : Exponent),
      l ∈ Base.hexadecimal.letters.toList ∧
      Separated (· ∈ Base.hexadecimal.digits.toList) cs ∧ (cs ≠ [] ∨ ∃ ds ∈ fraction, ds ≠ []) ∧
      (∀ ds ∈ fraction, ds = [] ∨ IsRun (· ∈ Base.hexadecimal.digits.toList) ds) ∧
      e.Suits "pP" ∧ w = '0' :: l :: (cs ++ (Numeral.pointed fraction ++ e.text)) := by
  unfold float
  rw [mem_add, mem_add, mem_decimal, mem_scaled, mem_marked_float]
  constructor
  · rintro ((⟨cs, ds, exponent, hcs, hds, hexponent, rfl⟩ | ⟨cs, e, hcs, he, rfl⟩) | h)
    · refine Or.inl ⟨cs, some ds, exponent, hcs, ?_, hexponent, Or.inl nofun, rfl⟩
      rintro _ ⟨⟩
      exact hds
    · refine Or.inl ⟨cs, none, some e, hcs, nofun, ?_, Or.inr nofun, rfl⟩
      rintro _ ⟨⟩
      exact he
    · exact Or.inr h
  · rintro (⟨cs, fraction, exponent, hcs, hfraction, hexponent, hany, rfl⟩ | h)
    · cases fraction with
      | some ds => exact Or.inl (Or.inl ⟨cs, ds, exponent, hcs, hfraction ds rfl, hexponent, rfl⟩)
      | none =>
        obtain ⟨e, rfl⟩ := Option.ne_none_iff_exists'.1 (hany.resolve_left (absurd rfl))
        exact Or.inl (Or.inr ⟨cs, e, hcs, hexponent e rfl, rfl⟩)
    · exact Or.inr h

end Lexical

end FrontEnd
