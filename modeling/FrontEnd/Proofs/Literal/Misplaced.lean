import FrontEnd.Proofs.Literal.Grammar
import FrontEnd.Proofs.Reading.Reference
import Mathlib.Order.Nat

/-!
# Where separators are out of place

A separator is in place between two digits, and the search returns the first one that is not.
It keeps one rune in mind and reports a separator with nothing behind it late, but it does what a
search with one rune of lookahead would do, which at each index only asks whether the separator
there is misplaced.

`misplaced_bytes` says this of any string of bytes.  In a text the search goes over runes, and
`misplaced?_utf8` says that it finds the same separator as the search over the bytes.
-/

namespace FrontEnd
namespace Separator

/-! ## Digits of a text -/

def Announces (b : Base) (text : List Char) : Prop :=
  ∃ l ∈ b.letters.toList, ['0', l] <+: text

/-- A digit is at index `i`.  The digits of base sixteen are digits in a text that announces this
base, and the letter that announces a base counts as a digit. -/
inductive HasDigit (text : List Char) (i : Nat) : Prop where
  | decimal {c : Char} (hc : text[i]? = some c) (hd : c ∈ Base.decimal.digits.toList)
  | hexadecimal {c : Char} (ha : Announces .hexadecimal text) (hc : text[i]? = some c)
    (hd : c ∈ Base.hexadecimal.digits.toList)
  | letter {b : Base} (ha : Announces b text) (hi : i = 1)

def FollowsDigit (text : List Char) (i : Nat) : Prop :=
  ∃ j, j + 1 = i ∧ HasDigit text j

/-- Both neighbours of index `i` are digits, and the second stands behind the letter of a base if
the text announces one. -/
structure IsBetween (text : List Char) (i : Nat) : Prop where
  left : FollowsDigit text i
  right : HasDigit text (i + 1)
  behind : ∀ b, Announces b text → 1 < i + 1

/-- At index `i` is a separator with no digit in front of it, or with neither a digit nor another
separator behind it. -/
def IsMisplaced (text : List Char) (i : Nat) : Prop :=
  text[i]? = some '_' ∧
    (¬ FollowsDigit text i ∨ ¬ (HasDigit text (i + 1) ∨ text[i + 1]? = some '_'))

section Digits

variable {b : Base} {text : List Char} {i : Nat}

theorem Announces.lead_read (h : Announces b text) :
    ∃ l, Lead.read text = .marked l ∧ Base.ofLetter? l = some b ∧ text[1]? = some l := by
  obtain ⟨l, hl, rest, rfl⟩ := h
  have hb := Base.ofLetter?_iff.2 hl
  exact ⟨l, Lead.read_marked (by rw [hb]; rfl) rest, hb, rfl⟩

theorem Announces.unique {b' : Base} (h : Announces b text) (h' : Announces b' text) : b = b' := by
  obtain ⟨l, hl, hb, -⟩ := h.lead_read
  obtain ⟨l', hl', hb', -⟩ := h'.lead_read
  rw [hl, Lead.marked.injEq] at hl'
  rw [← hl', hb, Option.some.injEq] at hb'
  exact hb'

theorem isMarked_iff : (Lead.read text).isMarked = true ↔ ∃ b, Announces b text := by
  constructor
  · intro h
    have htext := Lead.read_text text
    rcases Numeral.lead_read_cases text with ⟨hl, -⟩ | hl | ⟨l, hl, hletter⟩ <;> rw [hl] at h htext
    · cases h
    · cases h
    · obtain ⟨b, hb⟩ := Option.isSome_iff_exists.1 hletter
      exact ⟨b, l, Base.ofLetter?_iff.1 hb, _, htext⟩
  · rintro ⟨b, h⟩
    obtain ⟨l, hl, -⟩ := h.lead_read
    rw [hl]
    rfl

theorem HasDigit.ne_separator (h : HasDigit text i) : text[i]? ≠ some '_' := by
  have hdigit : ∀ {b : Base} {c : Char}, text[i]? = some c → c ∈ b.digits.toList →
      text[i]? ≠ some '_' := by
    intro b c hc hd hi
    rw [hi, Option.some.injEq] at hc
    exact b.takes_separator (Base.takes_of_digits (hc ▸ hd))
  cases h with
  | decimal hc hd => exact hdigit hc hd
  | hexadecimal ha hc hd => exact hdigit hc hd
  | letter ha hone =>
    obtain ⟨l, -, hb, hl⟩ := ha.lead_read
    rw [hone, hl]
    rintro ⟨⟩
    cases hb

theorem two_le_of_announces (ha : Announces b text) (hi : text[i]? = some '_') : 2 ≤ i := by
  have hletter : i ≠ 1 := fun hone => (HasDigit.letter ha hone).ne_separator hi
  have hzero : i ≠ 0 := by
    rintro rfl
    obtain ⟨l, -, rest, rfl⟩ := ha
    cases hi
  omega

/-- Behind the letter of its base a text has the digits that runs in this base take in. -/
theorem hasDigit_iff_of_announces (ha : Announces b text) (hi : 2 ≤ i) :
    HasDigit text i ↔ ∃ c, text[i]? = some c ∧ b.takes c = true := by
  have hdecimal : ∀ c ∈ Base.decimal.digits.toList, b.takes c = true :=
    forall_mem_of_all (by cases b <;> decide)
  constructor
  · intro h
    cases h with
    | decimal hc hd => exact ⟨_, hc, hdecimal _ hd⟩
    | hexadecimal ha' hc hd =>
      obtain rfl := ha.unique ha'
      exact ⟨_, hc, Base.takes_of_digits hd⟩
    | letter ha' hone => omega
  · rintro ⟨c, hc, ht⟩
    by_cases hb : b = .hexadecimal
    · subst hb
      exact .hexadecimal ha hc ((congrFun Base.takes_eq_hexadecimal c).mp ht)
    · exact .decimal hc ((congrFun (Base.takes_eq_decimal hb) c).mp ht)

theorem hasDigit_iff_of_unmarked (h : (Lead.read text).isMarked = false) :
    HasDigit text i ↔ ∃ c, text[i]? = some c ∧ Base.decimal.takes c = true := by
  have hno : ∀ b, ¬ Announces b text := by
    intro b hb
    rw [isMarked_iff.2 ⟨b, hb⟩] at h
    cases h
  constructor
  · intro h
    cases h with
    | decimal hc hd => exact ⟨_, hc, Base.takes_of_digits hd⟩
    | hexadecimal ha => exact absurd ha (hno _)
    | letter ha => exact absurd ha (hno _)
  · rintro ⟨c, hc, ht⟩
    exact .decimal hc ((congrFun (Base.takes_eq_decimal (by decide)) c).mp ht)

end Digits

/-! ## The search with lookahead -/

section Lookahead

variable {b : Base} {before : Before} {i : Nat} {c : Char} {rest : List Char}

theorem search_nil (hbefore : before ≠ .separator) : search b.takes before i [] = none := by
  cases before with
  | separator => exact absurd rfl hbefore
  | _ => rfl

/-- Behind a separator all that matters is whether the run goes on. -/
theorem search_separator : search b.takes .separator i rest =
    if rest.head?.any (inRun b) then search b.takes .other i rest else some (i - 1) := by
  cases rest with
  | nil => simp [search]
  | cons c cs =>
    by_cases hsep : c = '_'
    · simp [search, inRun, hsep]
    · by_cases hd : b.takes c = true <;> simp [search, inRun, hsep, hd]

/-- What a search that looks ahead has to know of the rune `c` behind it. -/
def passed (b : Base) (c : Char) : Before :=
  if b.takes c then .digit else .other

theorem passed_ne_separator : passed b c ≠ .separator := by
  unfold passed
  split <;> nofun

theorem passed_eq_digit_iff : passed b c = .digit ↔ b.takes c = true := by
  simp [passed]

/-- The search stops at a separator with no digit in front of it or with no run behind it. -/
theorem search_cons (hbefore : before ≠ .separator) : search b.takes before i (c :: rest) =
    if c = '_' ∧ (before = .other ∨ rest.head?.any (inRun b) = false) then some i
    else search b.takes (passed b c) (i + 1) rest := by
  by_cases hsep : c = '_'
  · subst hsep
    cases before with
    | digit =>
      cases hrun : rest.head?.any (inRun b) <;>
        simp [search, search_separator, hrun, passed, b.takes_separator]
    | separator => exact absurd rfl hbefore
    | other => simp [search]
  · by_cases hd : b.takes c = true
    · simp [search, passed, hsep, hd]
    · simp [search, passed, hsep, hd, hbefore]

end Lookahead

/-! ## The first misplaced separator -/

section First

variable {text : List Char} {b : Base} {start : Nat}
  (hdigit : ∀ i, start ≤ i → (HasDigit text i ↔ ∃ c, text[i]? = some c ∧ b.takes c = true))

include hdigit

theorem any_inRun_iff {i : Nat} (hi : start ≤ i) :
    text[i]?.any (inRun b) = true ↔ HasDigit text i ∨ text[i]? = some '_' := by
  rw [hdigit i hi]
  cases text[i]? with
  | none => simp
  | some c => simp [inRun_iff, or_comm]

theorem followsDigit_succ_iff {i : Nat} {c : Char} (hi : start ≤ i) (hc : text[i]? = some c) :
    FollowsDigit text (i + 1) ↔ b.takes c = true := by
  simp [FollowsDigit, hdigit i hi, hc]

/-- From any index on, the search finds the first misplaced separator.  The induction is on the
text that is left. -/
theorem search_eq_some_iff {rest : List Char} {before : Before} {i : Nat} (hi : start ≤ i)
    (hrest : text.drop i = rest) (hne : before ≠ .separator)
    (hbefore : before = .digit ↔ FollowsDigit text i) (k : Nat) :
    search b.takes before i rest = some k ↔ IsLeast {k | i ≤ k ∧ IsMisplaced text k} k := by
  induction rest generalizing before i with
  | nil =>
    have hlen : text.length ≤ i := List.drop_eq_nil_iff.1 hrest
    rw [search_nil hne]
    refine iff_of_false nofun ?_
    rintro ⟨⟨hk, hsep, -⟩, -⟩
    rw [List.getElem?_eq_none (by omega)] at hsep
    cases hsep
  | cons c rest ih =>
    have hc : text[i]? = some c := by rw [← List.head?_drop, hrest]; rfl
    have htail : text.drop (i + 1) = rest := by rw [← List.tail_drop, hrest]; rfl
    have hstop : IsMisplaced text i ↔
        c = '_' ∧ (before = .other ∨ rest.head?.any (inRun b) = false) := by
      have hother : before = .other ↔ ¬ FollowsDigit text i := by
        rw [← hbefore]
        cases before with
        | separator => exact absurd rfl hne
        | _ => simp
      rw [IsMisplaced, hc, Option.some.injEq, hother, ← htail, List.head?_drop,
        ← any_inRun_iff hdigit (by omega), Bool.not_eq_true]
    rw [search_cons hne]
    -- the lookahead decides about index `i`, and what is left is the search from `i + 1` on
    by_cases hm : IsMisplaced text i
    · have hleast : IsLeast {k | i ≤ k ∧ IsMisplaced text k} i :=
        ⟨⟨Nat.le_refl i, hm⟩, fun k hk => hk.1⟩
      rw [if_pos (hstop.1 hm), Option.some.injEq, hleast.isLeast_iff_eq]
    · have hskip : {k | i ≤ k ∧ IsMisplaced text k} = {k | i + 1 ≤ k ∧ IsMisplaced text k} := by
        ext k
        refine and_congr_left fun hk => ⟨fun hle => ?_, fun hlt => by omega⟩
        exact Nat.lt_of_le_of_ne hle fun heq => hm (heq ▸ hk)
      rw [if_neg fun h => hm (hstop.2 h), hskip]
      apply ih (by omega) htail passed_ne_separator
      rw [followsDigit_succ_iff hdigit hi hc, passed_eq_digit_iff]

end First

variable {text : List Char}

theorem misplaced?_eq_some_iff {i : Nat} :
    misplaced? text = some i ↔ IsLeast {i | IsMisplaced text i} i := by
  by_cases hmarked : (Lead.read text).isMarked = true
  · obtain ⟨b, l, hl, rest, rfl⟩ := isMarked_iff.1 hmarked
    have ha : Announces b (['0', l] ++ rest) := ⟨l, hl, rest, rfl⟩
    have hall : {k | 2 ≤ k ∧ IsMisplaced (['0', l] ++ rest) k} =
        {k | IsMisplaced (['0', l] ++ rest) k} := by
      ext k
      exact and_iff_right_of_imp fun hk => two_le_of_announces ha hk.1
    show misplaced? ('0' :: l :: rest) = _ ↔ _
    rw [misplaced?_marked (Base.ofLetter?_iff.2 hl), ← hall]
    apply search_eq_some_iff (fun j hj => hasDigit_iff_of_announces ha hj) (Nat.le_refl 2) rfl
      (by decide)
    exact iff_of_true rfl ⟨1, rfl, .letter ha rfl⟩
  · rw [Bool.not_eq_true] at hmarked
    have hall : {k | 0 ≤ k ∧ IsMisplaced text k} = {k | IsMisplaced text k} := by simp
    rw [misplaced?_unmarked hmarked, ← Base.takes_eq_isDigit (b := .decimal) nofun, ← hall]
    apply search_eq_some_iff (fun j _ => hasDigit_iff_of_unmarked hmarked) (Nat.le_refl 0) rfl
      (by decide)
    refine iff_of_false nofun ?_
    rintro ⟨j, hj, -⟩
    omega

theorem misplaced?_eq_none_iff : misplaced? text = none ↔ ∀ i, ¬ IsMisplaced text i := by
  constructor
  · intro hnone i hi
    classical
    have hleast := Nat.isLeast_find ⟨i, hi⟩
    rw [← misplaced?_eq_some_iff, hnone] at hleast
    cases hleast
  · intro h
    refine Option.eq_none_iff_forall_ne_some.2 fun i hi => ?_
    exact h i (misplaced?_eq_some_iff.1 hi).1

/-- If no separator is misplaced then each is between two digits.  Of two in a row the second is
misplaced, so that behind each there is a digit. -/
theorem forall_isBetween_iff : (∀ i, text[i]? = some '_' → IsBetween text i) ↔
    ∀ i, ¬ IsMisplaced text i := by
  constructor
  · rintro h i ⟨hi, hleft | hright⟩
    · exact hleft (h i hi).left
    · exact hright (Or.inl (h i hi).right)
  · intro h i hi
    have hsides : FollowsDigit text i ∧ (HasDigit text (i + 1) ∨ text[i + 1]? = some '_') := by
      by_contra hno
      exact h i ⟨hi, not_and_or.1 hno⟩
    obtain ⟨hleft, hright⟩ := hsides
    have hbehind : ∀ b, Announces b text → 1 < i + 1 := fun b ha => by
      have := two_le_of_announces ha hi
      omega
    refine ⟨hleft, hright.resolve_right fun hnext => h (i + 1) ⟨hnext, Or.inl ?_⟩, hbehind⟩
    rintro ⟨j, hj, hd⟩
    obtain rfl : j = i := by omega
    exact hd.ne_separator hi

/-! ## Bytes -/

def byteRunes (bytes : List UInt8) : List Char :=
  bytes.map Char.ofUInt8

def encoded (text : List Char) : List UInt8 :=
  text.flatMap String.utf8EncodeChar

section Encoded

variable {c d : Char} {cs ds : List Char}

theorem encoded_cons (c : Char) (cs : List Char) :
    encoded (c :: cs) = String.utf8EncodeChar c ++ encoded cs :=
  List.flatMap_cons

theorem length_encoded_cons (c : Char) (cs : List Char) :
    (encoded (c :: cs)).length = c.utf8Size + (encoded cs).length := by
  rw [encoded_cons, List.length_append, String.length_utf8EncodeChar]

theorem byteRunes_narrow (hc : c.utf8Size = 1) (cs : List Char) :
    byteRunes (encoded (c :: cs)) = c :: byteRunes (encoded cs) := by
  have hle := UInt32.le_iff_toNat_le.1 (Char.utf8Size_eq_one_iff.1 hc)
  have hval : c.val.toUInt8.toUInt32 = c.val := by
    apply UInt32.toNat_inj.1
    rw [UInt8.toNat_toUInt32, UInt32.toNat_toUInt8]
    apply Nat.mod_eq_of_lt
    exact Nat.lt_of_le_of_lt hle (by decide)
  rw [encoded_cons, String.utf8EncodeChar_eq_singleton hc]
  exact congrArg (· :: _) (Char.ext hval)

/-- Every byte of a sequence of more than one is above those that stand alone. -/
theorem high_of_wide (hc : c.utf8Size ≠ 1) : ∀ x ∈ String.utf8EncodeChar c, 128 ≤ x.toNat := by
  have hlen := String.length_utf8EncodeChar c
  have hencodes := Utf8.encodes_encodeChar c
  generalize String.utf8EncodeChar c = bs at hlen hencodes
  have hhigh : ∀ {base bound n : Nat} {x : UInt8}, Utf8.Carries base bound x n → 128 ≤ base →
      128 ≤ x.toNat := by
    intro base bound n x hx hbase
    rw [hx.byte]
    omega
  cases hencodes with
  | one => exact absurd hlen.symm hc
  | two ha hb => simp [hhigh ha, hhigh hb]
  | three ha hb hd => simp [hhigh ha, hhigh hb, hhigh hd]
  | four ha hb hd he => simp [hhigh ha, hhigh hb, hhigh hd, hhigh he]

/-- A longer sequence gives as many runes as it has bytes, none of which is of one byte. -/
theorem byteRunes_wide (hc : c.utf8Size ≠ 1) (cs : List Char) :
    ∃ x xs, byteRunes (encoded (c :: cs)) = x :: xs ++ byteRunes (encoded cs) ∧
      (x :: xs).length = c.utf8Size ∧ ∀ d ∈ x :: xs, d.utf8Size ≠ 1 := by
  have hlen : (byteRunes (String.utf8EncodeChar c)).length = c.utf8Size := by
    rw [byteRunes, List.length_map, String.length_utf8EncodeChar]
  have hwide : ∀ d ∈ byteRunes (String.utf8EncodeChar c), d.utf8Size ≠ 1 := by
    rw [byteRunes, List.forall_mem_map]
    intro x hx hsize
    have hhigh := high_of_wide hc x hx
    have hle := UInt32.le_iff_toNat_le.1 (Char.utf8Size_eq_one_iff.1 hsize)
    change x.toUInt32.toNat ≤ 127 at hle
    rw [UInt8.toNat_toUInt32] at hle
    omega
  have happend : byteRunes (encoded (c :: cs)) =
      byteRunes (String.utf8EncodeChar c) ++ byteRunes (encoded cs) := by
    rw [encoded_cons, byteRunes, List.map_append]
    rfl
  cases hbytes : byteRunes (String.utf8EncodeChar c) with
  | nil =>
    have hpos := c.utf8Size_pos
    rw [hbytes, List.length_nil] at hlen
    omega
  | cons x xs => exact ⟨x, xs, by rw [happend, hbytes], by rw [← hbytes, hlen], hbytes ▸ hwide⟩

/-- A rune of one byte is the first of the bytes only if it is the first of the text. -/
theorem exists_of_byteRunes (hd : d.utf8Size = 1) (h : byteRunes (encoded cs) = d :: ds) :
    ∃ rest, cs = d :: rest ∧ byteRunes (encoded rest) = ds := by
  cases cs with
  | nil => cases h
  | cons c cs =>
    by_cases hc : c.utf8Size = 1
    · rw [byteRunes_narrow hc, List.cons.injEq] at h
      exact ⟨cs, by rw [h.1], h.2⟩
    · obtain ⟨x, xs, hbytes, -, hwide⟩ := byteRunes_wide hc cs
      rw [hbytes, List.cons_append, List.cons.injEq] at h
      exact absurd (h.1 ▸ hd) (hwide x List.mem_cons_self)

theorem utf8Size_of_letters {b : Base} : ∀ l ∈ b.letters.toList, l.utf8Size = 1 :=
  forall_mem_of_all (by cases b <;> decide)

/-- The bytes of a text announce the base that the text announces. -/
theorem announces_byteRunes {b : Base} :
    Announces b (byteRunes (encoded cs)) ↔ Announces b cs := by
  constructor
  · rintro ⟨l, hl, rest, hrest⟩
    obtain ⟨cs, rfl, hcs⟩ := exists_of_byteRunes (d := '0') rfl hrest.symm
    obtain ⟨cs, rfl, -⟩ := exists_of_byteRunes (utf8Size_of_letters l hl) hcs
    exact ⟨l, hl, cs, rfl⟩
  · rintro ⟨l, hl, rest, rfl⟩
    refine ⟨l, hl, byteRunes (encoded rest), ?_⟩
    show _ = byteRunes (encoded ('0' :: l :: rest))
    rw [byteRunes_narrow rfl, byteRunes_narrow (utf8Size_of_letters l hl)]
    rfl

end Encoded

section Search

variable {b : Base} {before : Before} {cs front rest : List Char}

theorem inRun_of_wide {c : Char} (hc : c.utf8Size ≠ 1) : inRun b c = false :=
  Bool.eq_false_iff.2 fun h => hc (Numeral.utf8Size_of_inRun h)

theorem head_byteRunes (b : Base) (cs : List Char) :
    (byteRunes (encoded cs)).head?.any (inRun b) = cs.head?.any (inRun b) := by
  cases cs with
  | nil => rfl
  | cons c cs =>
    by_cases hc : c.utf8Size = 1
    · rw [byteRunes_narrow hc]
      rfl
    · obtain ⟨x, xs, hbytes, -, hwide⟩ := byteRunes_wide hc cs
      rw [hbytes]
      simp [inRun_of_wide hc, inRun_of_wide (hwide x List.mem_cons_self)]

/-- Where the search begins to count makes no other difference. -/
theorem search_add (hne : before ≠ .separator) (i n : Nat) :
    search b.takes before (i + n) rest = (search b.takes before i rest).map (· + n) := by
  induction rest generalizing before i with
  | nil =>
    rw [search_nil hne, search_nil hne]
    rfl
  | cons c rest ih =>
    rw [search_cons hne, search_cons hne, Nat.add_right_comm, ih passed_ne_separator]
    split <;> rfl

theorem search_foreign {c : Char} (hne : before ≠ .separator) (i : Nat)
    (hfront : ∀ d ∈ c :: front, inRun b d = false) :
    search b.takes before i (c :: front ++ rest) =
      search b.takes .other (i + (c :: front).length) rest := by
  induction front generalizing c before i with
  | nil =>
    obtain ⟨hsep, hd⟩ := inRun_eq_false.1 (hfront c List.mem_cons_self)
    simp [search_cons hne, passed, hsep, hd]
  | cons d front ih =>
    obtain ⟨hc, hfront⟩ := List.forall_mem_cons.1 hfront
    obtain ⟨hsep, hd⟩ := inRun_eq_false.1 hc
    rw [List.cons_append, search_cons hne, if_neg fun h => hsep h.1,
      ih passed_ne_separator (i + 1) hfront, List.length_cons (a := c)]
    congr 1
    omega

/-- Bytes in front of a separator, counted from the next rune on. -/
theorem search_take_cons (hne : before ≠ .separator) (i : Nat) (c : Char) :
    (search b.takes before 1 cs).map (fun k => i + (encoded ((c :: cs).take k)).length) =
      (search b.takes before 0 cs).map
        fun k => i + c.utf8Size + (encoded (cs.take k)).length := by
  rw [search_add hne 0 1, Option.map_map]
  congr 1
  funext k
  show i + (encoded (c :: cs.take k)).length = _
  rw [length_encoded_cons, Nat.add_assoc]

/-- The search over the bytes of a text finds the first byte of the rune that the search over the
text finds. -/
theorem search_byteRunes (hne : before ≠ .separator) (i : Nat) :
    search b.takes before i (byteRunes (encoded cs)) =
      (search b.takes before 0 cs).map fun k => i + (encoded (cs.take k)).length := by
  induction cs generalizing before i with
  | nil =>
    show search b.takes before i [] = _
    rw [search_nil hne, search_nil hne]
    rfl
  | cons c cs ih =>
    by_cases hc : c.utf8Size = 1
    · rw [byteRunes_narrow hc, search_cons hne, search_cons hne, head_byteRunes]
      split
      · rfl
      · rw [ih passed_ne_separator, search_take_cons passed_ne_separator, hc]
    · obtain ⟨x, xs, hbytes, hlen, hwide⟩ := byteRunes_wide hc cs
      have hrune : search b.takes before 0 (c :: cs) = search b.takes .other 1 cs :=
        search_foreign hne 0 (List.forall_mem_singleton.2 (inRun_of_wide hc))
      rw [hbytes, search_foreign hne i fun d hd => inRun_of_wide (hwide d hd), hlen, hrune,
        ih (by decide), search_take_cons (by decide)]

end Search

/-- In a text and in its bytes the same separator is found: the index in the bytes is the number
of bytes in front of it. -/
theorem misplaced?_utf8 (text : List Char) : misplaced? (byteRunes (encoded text)) =
    (misplaced? text).map fun i => (encoded (text.take i)).length := by
  by_cases hmarked : (Lead.read text).isMarked = true
  · obtain ⟨b, l, hl, rest, rfl⟩ := isMarked_iff.1 hmarked
    have hb := Base.ofLetter?_iff.2 hl
    have hsize := utf8Size_of_letters l hl
    show misplaced? (byteRunes (encoded ('0' :: l :: rest))) =
      (misplaced? ('0' :: l :: rest)).map fun i => (encoded (('0' :: l :: rest).take i)).length
    rw [byteRunes_narrow rfl, byteRunes_narrow hsize, misplaced?_marked hb, misplaced?_marked hb,
      search_byteRunes (by decide), search_add (by decide) 0 2, Option.map_map]
    congr 1
    funext k
    show _ = (encoded ('0' :: l :: rest.take k)).length
    rw [length_encoded_cons, length_encoded_cons, hsize, ← Nat.add_assoc]
    rfl
  · have hbytes : ¬ (Lead.read (byteRunes (encoded text))).isMarked = true := by
      simpa only [isMarked_iff, announces_byteRunes] using hmarked
    rw [Bool.not_eq_true] at hmarked hbytes
    rw [misplaced?_unmarked hmarked, misplaced?_unmarked hbytes,
      ← Base.takes_eq_isDigit (b := .decimal) nofun, search_byteRunes (by decide)]
    simp

/-- An accented letter is two bytes. -/
example : misplaced? "1é_2".toList = some 2 ∧
    misplaced? (byteRunes (encoded "1é_2".toList)) = some 3 := by
  decide

/-- In any string of bytes the search finds nothing exactly if every separator is between two
digits, and else it finds the first one that is misplaced.  It is the one that is found in the
text, if the bytes are those of a text. -/
theorem misplaced_bytes (bytes : List UInt8) :
    (misplaced? (byteRunes bytes) = none ↔
      ∀ i, (byteRunes bytes)[i]? = some '_' → IsBetween (byteRunes bytes) i) ∧
    (∀ i, misplaced? (byteRunes bytes) = some i ↔
      IsLeast {i | IsMisplaced (byteRunes bytes) i} i) ∧
    ∀ text, encoded text = bytes →
      misplaced? (byteRunes bytes) = (misplaced? text).map fun i =>
        (encoded (text.take i)).length := by
  refine ⟨?_, fun i => misplaced?_eq_some_iff, ?_⟩
  · rw [misplaced?_eq_none_iff, forall_isBetween_iff]
  · rintro text rfl
    exact misplaced?_utf8 text

end Separator
end FrontEnd
