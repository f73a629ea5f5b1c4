import FrontEnd.Proofs.Double.Shortest

/-!
# Texts of doubles

A finite double is written as a digit and more digits with a point or an exponent, after a minus
sign if it has a sign.  The decimal that is read from this is the one that was written, whatever
the layout, so what is written is read back.
-/

namespace FrontEnd
namespace Double

variable {x : Double} {e : Int} {c : Nat}

def AreDigits (ds : List Char) : Prop :=
  ∀ c ∈ ds, c.isDigit = true

theorem areDigits_toDigits (n : Nat) : AreDigits (Nat.toDigits 10 n) := fun _ h =>
  Nat.isDigit_of_mem_toDigits (by decide) (by decide) h

theorem areDigits_zeros (k : Nat) : AreDigits (List.replicate k '0') := fun c h => by
  rw [List.eq_of_mem_replicate h]
  rfl

theorem AreDigits.append {ds fs : List Char} (h : AreDigits ds) (h' : AreDigits fs) :
    AreDigits (ds ++ fs) :=
  List.forall_mem_append.2 ⟨h, h'⟩

theorem digitsValue_toDigits (n : Nat) : digitsValue (Nat.toDigits 10 n) = n :=
  Nat.ofDigitChars_ten_toDigits

theorem digitsValue_append (ds fs : List Char) :
    digitsValue (ds ++ fs) = Nat.ofDigitChars 10 fs (digitsValue ds) :=
  Nat.ofDigitChars_append 0

theorem digitsValue_zeros (ds : List Char) (k : Nat) :
    digitsValue (ds ++ List.replicate k '0') = 10 ^ k * digitsValue ds := by
  rw [digitsValue_append, Nat.ofDigitChars_replicate_zero]

theorem zeros_digitsValue (ds : List Char) (k : Nat) :
    digitsValue (List.replicate k '0' ++ ds) = digitsValue ds := by
  have hzeros : digitsValue (List.replicate k '0') = 0 := Nat.ofDigitChars_replicate_zero
  rw [digitsValue_append, hzeros]
  rfl

theorem le_ofDigitChars (ds : List Char) (n : Nat) : n ≤ Nat.ofDigitChars 10 ds n := by
  induction ds generalizing n with
  | nil => exact Nat.le_refl n
  | cons d ds ih =>
    rw [Nat.ofDigitChars_cons]
    exact le_trans (by omega) (ih _)

theorem exponentValue_eq {ds : List Char} (h : digitsValue ds < 65536) :
    exponentValue ds = digitsValue ds := by
  have hfold : ∀ n, Nat.ofDigitChars 10 ds n < 65536 →
      ds.foldl (fun n d => if n < 65536 then 10 * n + (d.toNat - '0'.toNat) else n) n =
        Nat.ofDigitChars 10 ds n := by
    clear h
    induction ds with
    | nil => exact fun n _ => rfl
    | cons d ds ih =>
      intro n hn
      have hle := le_ofDigitChars (d :: ds) n
      rw [Nat.ofDigitChars_cons] at hn ⊢
      rw [List.foldl_cons, if_pos (by rw [Nat.ofDigitChars_cons] at hle; omega)]
      exact ih _ hn
  exact hfold 0 h

theorem splitSign_of_digit {d : Char} (hd : d.isDigit = true) (cs : List Char) :
    splitSign (d :: cs) = (false, d :: cs) := by
  unfold splitSign
  split
  · next heq =>
    cases heq
    cases hd
  · next heq =>
    cases heq
    cases hd
  · rfl

/-- The digits of a number, of which there is at least one. -/
theorem exists_toDigits (n : Nat) : ∃ d ds, Nat.toDigits 10 n = d :: ds ∧ d.isDigit = true := by
  obtain ⟨d, ds, h⟩ := List.exists_cons_of_ne_nil (Nat.toDigits_ne_nil (n := n) (b := 10))
  refine ⟨d, ds, h, areDigits_toDigits n d ?_⟩
  rw [h]
  exact List.mem_cons_self

theorem readExponent_digits {n : Nat} (hn : n < 65536) (cs : List Char) (negative : Bool)
    (hcs : splitSign cs = (negative, Nat.toDigits 10 n)) :
    readExponent ('e' :: cs) = some (if negative then -(n : Int) else n) := by
  have hvalue : exponentValue (Nat.toDigits 10 n) = n := by
    rw [exponentValue_eq, digitsValue_toDigits]
    rwa [digitsValue_toDigits]
  have hall : (Nat.toDigits 10 n).all Char.isDigit = true :=
    List.all_eq_true.2 (areDigits_toDigits n)
  simp only [readExponent, hcs, hvalue, hall, Nat.toDigits_ne_nil, ne_eq, not_false_eq_true,
    decide_true, Bool.and_true, if_true]

theorem readExponent_toString {z : Int} (hz : z.natAbs < 65536) :
    readExponent ('e' :: (toString z).toList) = some z := by
  rw [Int.toString_eq_repr]
  cases z with
  | ofNat n =>
    obtain ⟨d, ds, hds, hd⟩ := exists_toDigits n
    have hlist : (Int.ofNat n).repr.toList = Nat.toDigits 10 n := Nat.toList_repr
    have hsplit : splitSign (Nat.toDigits 10 n) = (false, Nat.toDigits 10 n) := by
      rw [hds]
      exact splitSign_of_digit hd ds
    rw [hlist, readExponent_digits hz _ false hsplit]
    rfl
  | negSucc n =>
    have hlist : (Int.negSucc n).repr.toList = '-' :: Nat.toDigits 10 (n + 1) := by
      rw [Int.repr, String.toList_append, Nat.toList_repr]
      rfl
    rw [hlist, readExponent_digits hz _ true rfl]
    rfl

/-! ## Decimals -/

def NoDigit (cs : List Char) : Prop :=
  ∀ c ∈ cs.head?, c.isDigit = false

theorem takeWhile_digits {ds rest : List Char} (hds : AreDigits ds) (hrest : NoDigit rest) :
    (ds ++ rest).takeWhile Char.isDigit = ds ∧ (ds ++ rest).dropWhile Char.isDigit = rest := by
  rw [List.takeWhile_append_of_pos hds, List.dropWhile_append_of_pos hds]
  cases rest with
  | nil => exact ⟨List.append_nil ds, rfl⟩
  | cons c cs =>
    have hc := hrest c rfl
    rw [List.takeWhile_cons, List.dropWhile_cons, hc]
    exact ⟨List.append_nil ds, rfl⟩

theorem readDecimal_point (ds fs rest : List Char) (hds : AreDigits ds) (hfs : AreDigits fs)
    (hne : ds ++ fs ≠ []) (hrest : NoDigit rest) :
    readDecimal (ds ++ '.' :: (fs ++ rest)) =
      (readExponent rest).map fun (e : Int) => (digitsValue (ds ++ fs), e - fs.length) := by
  have hpoint : NoDigit ('.' :: (fs ++ rest)) := by
    rintro c ⟨⟩
    rfl
  obtain ⟨htake, hdrop⟩ := takeWhile_digits hds hpoint
  obtain ⟨htake', hdrop'⟩ := takeWhile_digits hfs hrest
  unfold readDecimal
  simp only [htake, hdrop, htake', hdrop', hne, if_false]

theorem readDecimal_exponent (ds cs : List Char) (hds : AreDigits ds) (hne : ds ≠ []) :
    readDecimal (ds ++ 'e' :: cs) =
      (readExponent ('e' :: cs)).map fun e => (digitsValue ds, e) := by
  have hrest : NoDigit ('e' :: cs) := by
    rintro c ⟨⟩
    rfl
  obtain ⟨htake, hdrop⟩ := takeWhile_digits hds hrest
  unfold readDecimal
  simp [htake, hdrop, hne]

/-- A text that is read as `c · 10 ^ e`, perhaps with more digits and a smaller exponent. -/
def Writes (cs : List Char) (c : Nat) (e : Int) : Prop :=
  ∃ n i, readDecimal cs = some (n, i) ∧ (n : ℚ) * 10 ^ i = c * 10 ^ e

theorem writes_positional {ds : List Char} (hds : AreDigits ds) (hne : ds ≠ []) (places : Int) :
    Writes (positional ds places) (digitsValue ds) (places - ds.length) := by
  unfold positional
  split
  · next hsmall =>
    have hread := readDecimal_point ['0'] (List.replicate (-places).toNat '0' ++ ds) []
      (areDigits_zeros 1) ((areDigits_zeros _).append hds) (by simp) (by simp [NoDigit])
    rw [List.append_nil] at hread
    refine ⟨_, _, hread, ?_⟩
    have hzeros := zeros_digitsValue ds (1 + (-places).toNat)
    rw [List.replicate_add, List.append_assoc] at hzeros
    rw [show ['0'] = List.replicate 1 '0' from rfl, hzeros, List.length_append,
      List.length_replicate]
    congr 2
    omega
  split
  · next hlarge =>
    have hread := readDecimal_point (ds ++ List.replicate (places.toNat - ds.length) '0') ['0'] []
      (hds.append (areDigits_zeros _)) (areDigits_zeros 1) (by simp)
      (by simp [NoDigit])
    refine ⟨_, _, hread, ?_⟩
    have hzeros := digitsValue_zeros ds (places.toNat - ds.length + 1)
    rw [List.replicate_add, ← List.append_assoc] at hzeros
    have hplaces : places - ds.length = (places.toNat - ds.length + 1 : Nat) + (0 - 1) := by omega
    rw [show ['0'] = List.replicate 1 '0' from rfl, hzeros, hplaces, zpow_add₀ (by norm_num),
      zpow_natCast, List.length_replicate]
    push_cast
    ring
  · next hbetween =>
    have hread := readDecimal_point (ds.take places.toNat) (ds.drop places.toNat) []
      (fun c hc => hds c (List.mem_of_mem_take hc))
      (fun c hc => hds c (List.mem_of_mem_drop hc)) (by rwa [List.take_append_drop])
      (by simp [NoDigit])
    rw [List.append_nil, List.take_append_drop] at hread
    refine ⟨_, _, hread, ?_⟩
    rw [List.length_drop]
    congr 2
    omega

theorem writes_scientific {ds : List Char} (hds : AreDigits ds) (hne : ds ≠ []) {places : Int}
    (hplaces : (places - 1).natAbs < 65536) :
    Writes (scientific ds places) (digitsValue ds) (places - ds.length) := by
  have hexponent := readExponent_toString hplaces
  match ds, hne with
  | [d], _ =>
    have hread := readDecimal_exponent [d] (toString (places - 1)).toList hds
      (List.cons_ne_nil d [])
    rw [hexponent] at hread
    exact ⟨_, _, hread, rfl⟩
  | d :: f :: fs, _ =>
    have hread := readDecimal_point [d] (f :: fs) ('e' :: (toString (places - 1)).toList)
      (fun c hc => hds c (List.mem_append_left (f :: fs) hc))
      (fun c hc => hds c (List.mem_cons_of_mem d hc)) (by simp) (by rintro c ⟨⟩; rfl)
    rw [hexponent] at hread
    refine ⟨_, _, hread, ?_⟩
    simp only [List.length_cons]
    congr 2
    push_cast
    omega

/-! ## Magnitudes -/

theorem ofDecimal_spec (c : Nat) (e : Int) :
    ∃ k, ofDecimal c e = ofParts false k ∧ RoundsTo (c * 10 ^ e) k := by
  rcases Nat.eq_zero_or_pos c with rfl | hc
  · refine ⟨0, by simp [ofDecimal, ofRatio, zero], roundsTo_zero_iff.2 ?_⟩
    rw [Nat.cast_zero, zero_mul]
    positivity
  · have hden : 0 < Nat.pow 10 (-e).toNat := Nat.pow_pos (by decide)
    have hnum : 0 < c * Nat.pow 10 e.toNat := Nat.mul_pos hc (Nat.pow_pos (by decide))
    obtain ⟨n, u, hfits, hround⟩ := exists_fits hnum hden
    refine ⟨_, hround, ?_⟩
    rw [zpow_eq_div (by norm_num), ← mul_div_assoc]
    have hrounds := hfits.roundsTo
    push_cast [Nat.pow_eq] at hrounds
    exact hrounds

theorem length_toDigits {c : Nat} (hc : 0 < c) :
    10 ^ ((Nat.toDigits 10 c).length - 1) ≤ c ∧ c < 10 ^ (Nat.toDigits 10 c).length := by
  have hlength := Nat.length_toDigits_pos (b := 10) (n := c)
  constructor
  · rcases Nat.eq_zero_or_pos ((Nat.toDigits 10 c).length - 1) with hone | hmore
    · rw [hone]
      exact hc
    · by_contra hlt
      have hless := (Nat.length_toDigits_le_iff (by decide) hmore).2 (Nat.lt_of_not_le hlt)
      omega
  · exact (Nat.length_toDigits_le_iff (by decide) hlength).1 (Nat.le_refl _)

/-- The point of a double stands within reach of the exponents that are read. -/
theorem places_bound (hpos : 0 < x.magnitude) (hfin : x.isFinite = true) :
    (((Nat.toDigits 10 x.digits.value).length : Int) + x.digits.exponent - 1).natAbs < 65536 := by
  have hrounds := digits_roundsTo hpos hfin
  generalize x.digits.value = c at hrounds ⊢
  generalize x.digits.exponent = e at hrounds ⊢
  have hbits : x.magnitude < infinityBits := of_decide_eq_true hfin
  have hlow : (2 : ℚ) ^ (-1075 : Int) ≤ c * 10 ^ e := midpoint_zero ▸ hrounds.midpoint_le hpos
  have hhigh : (c : ℚ) * 10 ^ e ≤ 2 ^ (1024 : Int) :=
    calc (c : ℚ) * 10 ^ e ≤ midpoint x.magnitude := hrounds.le_midpoint (Nat.le_refl _) hbits
      _ ≤ midpoint (infinityBits - 1) := midpoint_strictMono.monotone (by omega)
      _ = limit := midpoint_last
      _ ≤ 2 ^ (1024 : Int) := limit_le
  have hc : 0 < c := by
    rcases Nat.eq_zero_or_pos c with rfl | hc
    · rw [Nat.cast_zero, zero_mul] at hlow
      exact absurd hlow (not_le_of_gt (by positivity))
    · exact hc
  have hlength := Nat.length_toDigits_pos (b := 10) (n := c)
  obtain ⟨hleast, hmost⟩ := length_toDigits hc
  generalize (Nat.toDigits 10 c).length = k at hlength hleast hmost ⊢
  have hupper : (k : Int) - 1 + e < 1025 := by
    by_contra hlarge
    have hpower : (10 : ℚ) ^ (1025 : Int) ≤ 2 ^ (1024 : Int) :=
      calc (10 : ℚ) ^ (1025 : Int) ≤ 10 ^ ((k : Int) - 1 + e) :=
            zpow_le_zpow_right₀ (by norm_num) (by omega)
        _ = (10 ^ (k - 1) : Nat) * 10 ^ e := by
          rw [zpow_add₀ (by norm_num), show (k : Int) - 1 = (k - 1 : Nat) by omega, zpow_natCast]
          push_cast
          rfl
        _ ≤ c * 10 ^ e := mul_le_mul_of_nonneg_right (by exact_mod_cast hleast) (by positivity)
        _ ≤ 2 ^ (1024 : Int) := hhigh
    rw [ten_zpow_le_iff] at hpower
    exact absurd hpower (by decide +kernel)
  have hlower : -1075 < (k : Int) + e := by
    by_contra hsmall
    have hpower : (10 : ℚ) ^ (-1075 : Int) ≤ 2 ^ (-1075 : Int) :=
      (ten_zpow_le_iff _ _).2 (by decide +kernel)
    refine absurd hlow (not_le_of_gt ?_)
    calc (c : ℚ) * 10 ^ e < (10 ^ k : Nat) * 10 ^ e :=
          mul_lt_mul_of_pos_right (by exact_mod_cast hmost) (by positivity)
      _ = 10 ^ ((k : Int) + e) := by
        rw [zpow_add₀ (by norm_num), zpow_natCast]
        push_cast
        rfl
      _ ≤ 10 ^ (-1075 : Int) := zpow_le_zpow_right₀ (by norm_num) (by omega)
      _ ≤ 2 ^ (-1075 : Int) := hpower
  omega

theorem writes_magnitudeText (l : Layout) (hpos : 0 < x.magnitude) (hfin : x.isFinite = true) :
    Writes (magnitudeText l x) x.digits.value x.digits.exponent := by
  have hds := areDigits_toDigits x.digits.value
  have hne := Nat.toDigits_ne_nil (n := x.digits.value) (b := 10)
  have hplaces := places_bound hpos hfin
  have hexponent : ((Nat.toDigits 10 x.digits.value).length : Int) + x.digits.exponent -
      (Nat.toDigits 10 x.digits.value).length = x.digits.exponent := by omega
  have hpositional := writes_positional hds hne
    ((Nat.toDigits 10 x.digits.value).length + x.digits.exponent)
  have hscientific := writes_scientific hds hne hplaces
  rw [digitsValue_toDigits, hexponent] at hpositional hscientific
  unfold magnitudeText
  rw [if_neg hpos.ne']
  dsimp only
  split
  · exact hpositional
  · exact hscientific

theorem readMagnitude_of_digit {d : Char} (hd : d.isDigit = true) (cs : List Char) :
    readMagnitude (d :: cs) = (readDecimal (d :: cs)).map fun p => ofDecimal p.1 p.2 := by
  have hletter : ∀ {c : Char} {word : List Char}, c.isDigit = false → d :: cs ≠ c :: word := by
    rintro c word hc ⟨⟩
    rw [hd] at hc
    cases hc
  unfold readMagnitude
  rw [if_neg, if_neg]
  · exact hletter (c := 'n') rfl
  · rw [Bool.or_eq_true, decide_eq_true_eq, decide_eq_true_eq]
    exact not_or_intro (hletter (c := 'i') rfl) (hletter (c := 'i') rfl)

/-! ## What a text looks like -/

def isNumeric (c : Char) : Bool :=
  c.isDigit || c = '.' || c = 'e' || c = '-'

/-- Texts that begin with a digit and go on with digits, a point or an exponent. -/
structure IsDecimal (cs : List Char) : Prop where
  begins : ∃ d ds, cs = d :: ds ∧ d.isDigit = true
  numeric : ∀ c ∈ cs, isNumeric c = true
  marked : '.' ∈ cs ∨ 'e' ∈ cs

theorem AreDigits.numeric {ds : List Char} (h : AreDigits ds) : ∀ c ∈ ds, isNumeric c = true := by
  intro c hc
  rw [isNumeric, h c hc]
  rfl

theorem isDecimal_positional {ds : List Char} (hds : AreDigits ds) (hne : ds ≠ [])
    (places : Int) : IsDecimal (positional ds places) := by
  obtain ⟨d, fs, rfl⟩ := List.exists_cons_of_ne_nil hne
  have hd : d.isDigit = true := hds d List.mem_cons_self
  have hnumeric := hds.numeric
  have hzeros := fun k => (areDigits_zeros k).numeric
  unfold positional
  split
  · refine ⟨⟨'0', _, rfl, rfl⟩, ?_, Or.inl (by simp)⟩
    simp only [List.forall_mem_cons, List.forall_mem_append] at hnumeric ⊢
    exact ⟨rfl, rfl, hzeros _, hnumeric⟩
  split
  · refine ⟨⟨d, _, rfl, hd⟩, ?_, Or.inl (by simp)⟩
    simp only [List.forall_mem_append, List.forall_mem_cons]
    exact ⟨⟨List.forall_mem_cons.1 hnumeric, hzeros _⟩, rfl, rfl, nofun⟩
  · next hsmall _ =>
    obtain ⟨k, hk⟩ : ∃ k, places.toNat = k + 1 := ⟨places.toNat - 1, by omega⟩
    rw [hk]
    refine ⟨⟨d, _, rfl, hd⟩, ?_, Or.inl (by simp)⟩
    intro c hc
    rcases List.mem_append.1 hc with hc | hc
    · exact hnumeric c (List.mem_of_mem_take hc)
    rcases List.mem_cons.1 hc with rfl | hc
    · rfl
    · exact hnumeric c (List.mem_of_mem_drop hc)

theorem numeric_toString (z : Int) : ∀ c ∈ (toString z).toList, isNumeric c = true := by
  rw [Int.toString_eq_repr]
  cases z with
  | ofNat n =>
    have hlist : (Int.ofNat n).repr.toList = Nat.toDigits 10 n := Nat.toList_repr
    rw [hlist]
    exact (areDigits_toDigits n).numeric
  | negSucc n =>
    rw [Int.repr, String.toList_append, Nat.toList_repr]
    exact List.forall_mem_append.2 ⟨List.all_eq_true.1 rfl, (areDigits_toDigits _).numeric⟩

theorem isDecimal_scientific {ds : List Char} (hds : AreDigits ds) (hne : ds ≠ [])
    (places : Int) : IsDecimal (scientific ds places) := by
  have hnumeric := hds.numeric
  have hexponent := numeric_toString (places - 1)
  match ds, hne with
  | [d], _ =>
    refine ⟨⟨d, _, rfl, hds d List.mem_cons_self⟩, ?_, Or.inr (by simp [scientific])⟩
    exact List.forall_mem_append.2 ⟨hnumeric, List.forall_mem_cons.2 ⟨rfl, hexponent⟩⟩
  | d :: f :: fs, _ =>
    refine ⟨⟨d, _, rfl, hds d List.mem_cons_self⟩, ?_, Or.inr (by simp [scientific])⟩
    obtain ⟨hd, hfs⟩ := List.forall_mem_cons.1 hnumeric
    exact List.forall_mem_append.2 ⟨List.forall_mem_cons.2 ⟨hd, List.forall_mem_cons.2 ⟨rfl, hfs⟩⟩,
      List.forall_mem_cons.2 ⟨rfl, hexponent⟩⟩

theorem isDecimal_magnitudeText (l : Layout) (x : Double) : IsDecimal (magnitudeText l x) := by
  have hds := areDigits_toDigits x.digits.value
  have hne := Nat.toDigits_ne_nil (n := x.digits.value) (b := 10)
  unfold magnitudeText
  split
  · exact ⟨⟨'0', _, rfl, rfl⟩, List.all_eq_true.1 rfl, Or.inl (by decide)⟩
  dsimp only
  split
  · exact isDecimal_positional hds hne _
  · exact isDecimal_scientific hds hne _

theorem toList_text (hfin : x.isFinite = true) :
    x.text.toList = (if x.isNegative then ['-'] else []) ++ magnitudeText plainLayout x := by
  have hbits : x.magnitude < infinityBits := of_decide_eq_true hfin
  have hnan : x.isNaN = false := decide_eq_false (by omega)
  have hinfinite : x.isInfinite = false := decide_eq_false (by omega)
  unfold text
  rw [hnan, hinfinite]
  simp only [Bool.false_eq_true, if_false, String.toList_ofList]
  cases x.isNegative <;> rfl

/-! ## Reading back -/

theorem readMagnitude_magnitudeText (l : Layout) (hfin : x.isFinite = true) :
    readMagnitude (magnitudeText l x) = some (ofParts false x.magnitude) := by
  obtain ⟨d, ds, hcs, hd⟩ := (isDecimal_magnitudeText l x).begins
  rw [hcs, readMagnitude_of_digit hd, ← hcs]
  rcases Nat.eq_zero_or_pos x.magnitude with hzero | hpos
  · have htext : magnitudeText l x = ['0', '.', '0'] := if_pos hzero
    rw [htext, hzero]
    rfl
  · obtain ⟨n, i, hread, hvalue⟩ := writes_magnitudeText l hpos hfin
    obtain ⟨k, hdecimal, hrounds⟩ := ofDecimal_spec n i
    rw [hvalue] at hrounds
    rw [hread, Option.map_some, hdecimal, hrounds.unique (digits_roundsTo hpos hfin)]

theorem splitSign_text (hfin : x.isFinite = true) :
    splitSign x.text.toList = (x.isNegative, magnitudeText plainLayout x) := by
  obtain ⟨d, ds, hcs, hd⟩ := (isDecimal_magnitudeText plainLayout x).begins
  rw [toList_text hfin]
  cases x.isNegative with
  | true => rfl
  | false =>
    rw [hcs]
    exact splitSign_of_digit hd ds

/-- What is written is read back. -/
theorem read_text (hfin : x.isFinite = true) : read x.text.toList = some x := by
  have hmagnitude := readMagnitude_magnitudeText plainLayout hfin
  unfold read
  rw [splitSign_text hfin]
  dsimp only
  rw [hmagnitude, Option.map_some, withSign, magnitude_ofParts false x.magnitude_lt,
    ofParts_magnitude]

theorem eq_of_text_eq {y : Double} (hx : x.isFinite = true) (hy : y.isFinite = true)
    (h : x.text = y.text) : x = y := by
  have hread := read_text hx
  rw [h, read_text hy] at hread
  exact (Option.some.inj hread).symm

end Double
end FrontEnd
