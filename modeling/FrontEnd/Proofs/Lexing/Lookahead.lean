import FrontEnd.Proofs.Lexing.Step

/-!
# Where a token ends

A token takes in as much as it can, and to see that it ends one rune behind it is enough:
with another text there that begins with the same rune, or with one that no token goes on
with, the same token is scanned.
-/

namespace FrontEnd

/-- Whether no token goes on with `c`. -/
def breaks (c : Char) : Bool :=
  isSpace c || (single? c).isSome || c = Utf8.replacement

def breakers : List Char :=
  [' ', '\t', '\r', '\n', '(', ')', '\x7b', '\x7d', '\'', '"', ';', Utf8.replacement]

/-- A property that the runes lack that no token goes on with. -/
theorem eq_false_of_breaks (p : Char → Bool) (h : breakers.any p = false) (c : Char)
    (hc : breaks c = true) : p c = false := by
  have hmem : c ∈ breakers := by
    unfold breaks isSpace single? at hc
    unfold breakers
    split at hc <;> simp_all [or_assoc]
  simpa using List.any_eq_false.1 h c hmem

/-- A text that puts an end to any token in front of it. -/
def Break (cs : List Char) : Prop :=
  ∀ c, cs.head? = some c → breaks c = true

/-- Behind a token that ends at `cs` there may as well be `ds`. -/
def Alike (cs ds : List Char) : Prop :=
  ds.head? = cs.head? ∨ Break ds

theorem Alike.append {cs ds : List Char} (h : Alike cs ds) (as : List Char) :
    Alike (as ++ cs) (as ++ ds) := by
  cases as with
  | nil => exact h
  | cons a as => exact Or.inl rfl

/-- The first rune behind has no property that the runes that end tokens lack. -/
theorem Alike.head {p : Char → Bool} {cs ds : List Char} (h : Alike cs ds)
    (hp : ∀ c, breaks c = true → p c = false) (hcs : ∀ c, cs.head? = some c → p c = false) :
    ∀ c, ds.head? = some c → p c = false := by
  intro c hc
  rcases h with h | h
  · exact hcs c (h ▸ hc)
  · exact hp c (h c hc)

section Runs

variable {p : Char → Bool} {as cs ds : List Char}

theorem takeWhile_append_head (has : ∀ c ∈ as, p c = true)
    (hds : ∀ c, ds.head? = some c → p c = false) : (as ++ ds).takeWhile p = as := by
  have hnil : ds.takeWhile p = [] := by
    cases ds with
    | nil => rfl
    | cons d ds => exact List.takeWhile_cons_of_neg (by simp [hds d rfl])
  rw [List.takeWhile_append_of_pos has, hnil, List.append_nil]

theorem dropWhile_append_head (has : ∀ c ∈ as, p c = true)
    (hds : ∀ c, ds.head? = some c → p c = false) : (as ++ ds).dropWhile p = ds := by
  rw [List.dropWhile_append_of_pos has]
  cases ds with
  | nil => rfl
  | cons d ds => exact List.dropWhile_cons_of_neg (by simp [hds d rfl])

/-- What lacks a property that all of a run have is not in the run. -/
theorem not_mem_of_run {c : Char} (hc : p c = false) (has : ∀ a ∈ as, p a = true) : c ∉ as := by
  intro hm
  rw [has c hm] at hc
  cases hc

theorem head_dropWhile (p : Char → Bool) (cs : List Char) :
    ∀ c, (cs.dropWhile p).head? = some c → p c = false := by
  intro c hc
  have hn := List.head?_dropWhile_not p cs
  rw [hc] at hn
  simpa using hn

theorem takeWhile_alike (hp : ∀ c, breaks c = true → p c = false)
    (h : Alike (cs.dropWhile p) ds) :
    (cs.takeWhile p ++ ds).takeWhile p = cs.takeWhile p ∧
      (cs.takeWhile p ++ ds).dropWhile p = ds := by
  have hhead := h.head hp (head_dropWhile p cs)
  have hrun : ∀ c ∈ cs.takeWhile p, p c = true := fun c hc => List.mem_takeWhile_imp hc
  exact ⟨takeWhile_append_head hrun hhead, dropWhile_append_head hrun hhead⟩

end Runs

/-! ## Numerals -/

theorem inRun_of_breaks (b : Base) (c : Char) (h : breaks c = true) : inRun b c = false :=
  eq_false_of_breaks (inRun b) (by cases b <;> decide) c h

namespace Lead

theorem read_zero {cs : List Char}
    (h : ∀ c, cs.head? = some c → (Base.ofLetter? c).isSome = false) : read ('0' :: cs) = zero := by
  cases cs with
  | nil => rfl
  | cons c cs => simp [read, h c rfl]

theorem read_marked {l : Char} (h : (Base.ofLetter? l).isSome = true) (cs : List Char) :
    read ('0' :: l :: cs) = marked l :=
  if_pos h

theorem read_plain {cs : List Char} (h : ∀ c, cs.head? = some c → (c == '0') = false) :
    read cs = plain := by
  cases cs with
  | nil => rfl
  | cons c cs =>
    have hc : c ≠ '0' := by simpa using h c rfl
    simp [read, hc]

theorem read_alike {cs ds : List Char} (h : Alike (cs.drop (read cs).text.length) ds) :
    read ((read cs).text ++ ds) = read cs := by
  have hletter : ∀ c, breaks c = true → (Base.ofLetter? c).isSome = false :=
    eq_false_of_breaks (fun c => (Base.ofLetter? c).isSome) (by decide)
  have hzero : ∀ c, breaks c = true → (c == '0') = false :=
    eq_false_of_breaks (· == '0') (by decide)
  rcases cs with _ | ⟨c, cs⟩
  · exact read_plain (h.head hzero nofun)
  by_cases hc : c = '0'
  · subst hc
    by_cases hl : ∀ c, cs.head? = some c → (Base.ofLetter? c).isSome = false
    · rw [read_zero hl] at h ⊢
      exact read_zero (h.head hletter hl)
    · cases cs with
      | nil => exact absurd nofun hl
      | cons c cs =>
        have hb : (Base.ofLetter? c).isSome = true := by
          simpa only [List.head?_cons, Option.some.injEq, forall_eq', Bool.not_eq_false] using hl
        rw [read_marked hb]
        simp [text, read, hb]
  · have hr : ∀ d, (c :: cs).head? = some d → (d == '0') = false := by simpa using hc
    rw [read_plain hr] at h ⊢
    exact read_plain (h.head hzero hr)

end Lead

namespace Exponent

theorem readSign_none {cs : List Char}
    (h : ∀ c, cs.head? = some c → (c == '+' || c == '-') = false) : readSign cs = (none, cs) := by
  cases cs with
  | nil => rfl
  | cons c cs =>
    have hc : c ≠ '+' ∧ c ≠ '-' := by simpa using h c rfl
    simp [readSign, hc]

theorem readSign_alike {cs ds : List Char} (h : Alike (readSign cs).2 ds) :
    readSign ((readSign cs).1.toList ++ ds) = ((readSign cs).1, ds) := by
  have hsign : ∀ c, breaks c = true → (c == '+' || c == '-') = false :=
    eq_false_of_breaks (fun c => c == '+' || c == '-') (by decide)
  by_cases hs : ∀ c, cs.head? = some c → (c == '+' || c == '-') = false
  · rw [readSign_none hs] at h ⊢
    exact readSign_none (h.head hsign hs)
  · cases cs with
    | nil => exact absurd nofun hs
    | cons c cs =>
      have hc : c = '+' ∨ c = '-' := by
        simpa only [List.head?_cons, Option.some.injEq, forall_eq', Bool.not_eq_false,
          Bool.or_eq_true, beq_iff_eq] using hs
      rcases hc with rfl | rfl <;> rfl

theorem read_none {cs : List Char} (h : ∀ c, cs.head? = some c → isMarker c = false) :
    read cs = (none, cs) := by
  cases cs with
  | nil => rfl
  | cons c cs => simp [read, h c rfl]

theorem read_some {c : Char} (h : isMarker c = true) (cs : List Char) :
    read (c :: cs) =
      (some ⟨c, (readSign cs).1, (readSign cs).2.takeWhile (inRun .decimal)⟩,
        (readSign cs).2.dropWhile (inRun .decimal)) := by
  simp [read, h]

theorem read_alike {cs ds : List Char} (h : Alike (read cs).2 ds) :
    read ((read cs).1.elim [] text ++ ds) = ((read cs).1, ds) := by
  have hmarker : ∀ c, breaks c = true → isMarker c = false :=
    eq_false_of_breaks isMarker (by decide)
  by_cases hm : ∀ c, cs.head? = some c → isMarker c = false
  · rw [read_none hm] at h ⊢
    exact read_none (h.head hmarker hm)
  · cases cs with
    | nil => exact absurd nofun hm
    | cons c cs =>
      have hc : isMarker c = true := by simpa using hm
      rw [read_some hc] at h ⊢
      obtain ⟨ht, hd⟩ := takeWhile_alike (inRun_of_breaks .decimal) h
      have hsign : Alike (readSign cs).2
          ((readSign cs).2.takeWhile (inRun .decimal) ++ ds) := by
        have happ := h.append ((readSign cs).2.takeWhile (inRun .decimal))
        rwa [List.takeWhile_append_dropWhile] at happ
      simp only [Option.elim_some, text, List.cons_append, List.append_assoc]
      rw [read_some hc, readSign_alike hsign, ht, hd]

end Exponent

namespace Numeral

theorem readFraction_none {b : Base} {cs : List Char}
    (h : ∀ c, cs.head? = some c → (c == '.') = false) : readFraction b cs = (none, cs) := by
  cases cs with
  | nil => rfl
  | cons c cs =>
    have hc : c ≠ '.' := by simpa using h c rfl
    simp [readFraction, hc]

theorem readFraction_some (b : Base) (cs : List Char) :
    readFraction b ('.' :: cs) = (some (cs.takeWhile (inRun b)), cs.dropWhile (inRun b)) := rfl

theorem readFraction_alike {b : Base} {cs ds : List Char} (h : Alike (readFraction b cs).2 ds) :
    readFraction b (pointed (readFraction b cs).1 ++ ds) = ((readFraction b cs).1, ds) := by
  have hpoint : ∀ c, breaks c = true → (c == '.') = false :=
    eq_false_of_breaks (· == '.') (by decide)
  by_cases hp : ∀ c, cs.head? = some c → (c == '.') = false
  · rw [readFraction_none hp] at h ⊢
    exact readFraction_none (h.head hpoint hp)
  · cases cs with
    | nil => exact absurd nofun hp
    | cons c cs =>
      obtain rfl : c = '.' := by simpa using hp
      rw [readFraction_some] at h ⊢
      obtain ⟨ht, hd⟩ := takeWhile_alike (inRun_of_breaks b) h
      rw [pointed, List.cons_append, readFraction_some, ht, hd]

theorem readImaginary_none {cs : List Char} (h : ∀ c, cs.head? = some c → (c == 'i') = false) :
    readImaginary cs = (false, cs) := by
  cases cs with
  | nil => rfl
  | cons c cs =>
    have hc : c ≠ 'i' := by simpa using h c rfl
    simp [readImaginary, hc]

theorem readImaginary_alike {cs ds : List Char} (h : Alike (readImaginary cs).2 ds) :
    readImaginary (imaginaryMark (readImaginary cs).1 ++ ds) = ((readImaginary cs).1, ds) := by
  have hmark : ∀ c, breaks c = true → (c == 'i') = false :=
    eq_false_of_breaks (· == 'i') (by decide)
  by_cases hi : ∀ c, cs.head? = some c → (c == 'i') = false
  · rw [readImaginary_none hi] at h ⊢
    exact readImaginary_none (h.head hmark hi)
  · cases cs with
    | nil => exact absurd nofun hi
    | cons c cs =>
      obtain rfl : c = 'i' := by simpa using hi
      rfl

/-- A numeral is read part by part, and each part ends where it did. -/
theorem read_alike {cs ds : List Char} (h : Alike (read cs).2 ds) :
    read ((read cs).1.text ++ ds) = ((read cs).1, ds) := by
  generalize hl : Lead.read cs = lead
  generalize hw : cs.drop lead.text.length = digits
  generalize hf : readFraction lead.base (digits.dropWhile (inRun lead.base)) = fraction
  generalize he : Exponent.read fraction.2 = exponent
  generalize hi : readImaginary exponent.2 = imaginary
  have hread : read cs = (⟨lead, digits.takeWhile (inRun lead.base), fraction.1, exponent.1,
      imaginary.1⟩, imaginary.2) := by
    simp only [read, hl, hw, hf, he, hi]
  rw [hread] at h ⊢
  have hi' : Alike exponent.2 (imaginaryMark imaginary.1 ++ ds) := by
    rw [← readImaginary_text exponent.2, hi]
    exact h.append _
  have he' : Alike fraction.2 (exponent.1.elim [] Exponent.text ++
      (imaginaryMark imaginary.1 ++ ds)) := by
    rw [← Exponent.read_text fraction.2, he]
    exact hi'.append _
  have hf' : Alike (digits.dropWhile (inRun lead.base)) (pointed fraction.1 ++
      (exponent.1.elim [] Exponent.text ++ (imaginaryMark imaginary.1 ++ ds))) := by
    rw [← readFraction_text lead.base (digits.dropWhile (inRun lead.base)), hf]
    exact he'.append _
  have hw' : Alike digits (digits.takeWhile (inRun lead.base) ++ (pointed fraction.1 ++
      (exponent.1.elim [] Exponent.text ++ (imaginaryMark imaginary.1 ++ ds)))) := by
    have happ := hf'.append (digits.takeWhile (inRun lead.base))
    rwa [List.takeWhile_append_dropWhile] at happ
  have hlead : Lead.read ((Lead.read cs).text ++ _) = _ :=
    Lead.read_alike (by rw [hl, hw]; exact hw')
  obtain ⟨ht, hd⟩ := takeWhile_alike (inRun_of_breaks lead.base) hf'
  have hfraction := readFraction_alike (hf ▸ he')
  have hexponent := Exponent.read_alike (he ▸ hi')
  have himaginary := readImaginary_alike (hi ▸ h)
  rw [hf] at hfraction
  rw [he] at hexponent
  rw [hi] at himaginary
  rw [hl] at hlead
  simp only [text, magnitude, mantissa, List.append_assoc]
  simp only [read, hlead, List.drop_left, ht, hd, hfraction, hexponent, himaginary]

end Numeral

/-! ## Tokens -/

namespace Lexeme

/-- A run of runes behind the first is the same run in front of something like it. -/
theorem takeWhile_scan {p : Char → Bool} (hp : ∀ c, breaks c = true → p c = false) {c : Char}
    {cs cs' rest rest' : List Char} (hr : c :: cs.takeWhile p ++ rest = c :: cs)
    (h : Alike rest rest') (hcs' : c :: cs.takeWhile p ++ rest' = c :: cs') :
    cs'.takeWhile p = cs.takeWhile p := by
  have hrest : rest = cs.dropWhile p := by
    have hcs := (List.cons.inj hr).2.trans (List.takeWhile_append_dropWhile (p := p) (l := cs)).symm
    exact List.append_cancel_left hcs
  rw [← (List.cons.inj hcs').2]
  exact (takeWhile_alike hp (hrest ▸ h)).1

theorem scan_alike {c : Char} {cs cs' rest rest' : List Char}
    (hr : (scan c cs).runes ++ rest = c :: cs) (h : Alike rest rest')
    (hcs' : (scan c cs).runes ++ rest' = c :: cs') : scan c cs' = scan c cs := by
  unfold scan at hr hcs' ⊢
  by_cases hi : beginsIdent c = true
  · have hp : ∀ c, breaks c = true → continuesIdent c = false :=
      eq_false_of_breaks continuesIdent (by decide +kernel)
    rw [if_pos hi] at hr hcs'
    rw [if_pos hi, if_pos hi]
    unfold ident at hr hcs' ⊢
    rw [takeWhile_scan hp hr h hcs']
  rw [if_neg hi] at hr hcs'
  rw [if_neg hi, if_neg hi]
  by_cases hd : c.isDigit = true
  · rw [if_pos hd] at hr hcs'
    rw [if_pos hd, if_pos hd]
    have hrest : rest = (Numeral.read (c :: cs)).2 :=
      List.append_cancel_left (hr.trans (number_append (c :: cs)).symm)
    unfold number at hcs' ⊢
    rw [← hcs', Numeral.read_alike (hrest ▸ h)]
  rw [if_neg hd] at hr hcs'
  rw [if_neg hd, if_neg hd]
  cases hk : single? c with
  | some k => rfl
  | none =>
    have hp : ∀ c, breaks c = true → isSymbol c = false :=
      eq_false_of_breaks isSymbol (by decide)
    rw [hk] at hr hcs'
    dsimp only at hr hcs' ⊢
    unfold symbol at hr hcs' ⊢
    rw [takeWhile_scan hp hr h hcs']

theorem scan_append {rest : List Char} (h : Break rest) (c : Char) (cs : List Char) :
    scan c (cs ++ rest) = scan c cs := by
  obtain ⟨r, hr⟩ := scan_isPrefix c cs
  have halike : Alike r (r ++ rest) := by
    cases r with
    | nil => exact Or.inr h
    | cons d r => exact Or.inl rfl
  refine scan_alike hr halike ?_
  rw [← List.append_assoc, hr, List.cons_append]

/-- Behind its first rune a token has none that ends tokens. -/
theorem breaks_of_mem {c d : Char} {cs : List Char} (h : d ∈ (scan c cs).runes) :
    d = c ∨ breaks d = false := by
  have hbreak : Break (cs.dropWhile fun e => !breaks e) := by
    intro e he
    simpa using head_dropWhile _ cs e he
  have hscan : scan c cs = scan c (cs.takeWhile fun e => !breaks e) := by
    conv_lhs => rw [← List.takeWhile_append_dropWhile (p := fun e => !breaks e) (l := cs)]
    exact scan_append hbreak c _
  rw [hscan] at h
  obtain ⟨r, hr⟩ := scan_isPrefix c (cs.takeWhile fun e => !breaks e)
  rcases List.mem_cons.1 (hr ▸ List.mem_append_left r h) with hd | hd
  · exact Or.inl hd
  · exact Or.inr (by simpa using List.mem_takeWhile_imp hd)

end Lexeme
end FrontEnd
