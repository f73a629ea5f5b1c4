import FrontEnd.Proofs.Double.Text
import FrontEnd.Proofs.Lexing.Spelling
import FrontEnd.Proofs.Literal.Parts
import FrontEnd.Proofs.Surface.Derivation
import FrontEnd.Proofs.Tree.Text

/-!
# Words of printed trees

In the text of a tree blanks and parentheses stand around words: names, numbers and the mark of
a literal without a value.  A word tells by its runes what it is, and so which leaf of the tree
it was written for.
-/

namespace FrontEnd

open Surface (away)

/-! ## Words -/

def isInk (c : Char) : Bool :=
  c ≠ ' ' && c ≠ '(' && c ≠ ')'

/-- Runes of a kind that neither blanks nor parentheses belong to may stand in a word. -/
theorem isInk_of (p : Char → Bool) (hp : [' ', '(', ')'].all (fun d => !p d) = true) {c : Char}
    (hc : p c = true) : isInk c = true := by
  have hne : ∀ d ∈ [' ', '(', ')'], c ≠ d := by
    rintro d hd rfl
    have hno := List.all_eq_true.1 hp c hd
    rw [hc] at hno
    cases hno
  simp only [List.forall_mem_cons] at hne
  simp [isInk, hne]

structure Unbroken (w : List Char) : Prop where
  ne_nil : w ≠ []
  ink : ∀ c ∈ w, isInk c = true

def Delimited (rest : List Char) : Prop :=
  ∀ c ∈ rest.head?, c = ' ' ∨ c = ')'

theorem delimited_nil : Delimited [] := nofun

theorem delimited_blank (cs : List Char) : Delimited (' ' :: cs) := by
  rintro c ⟨⟩
  exact Or.inl rfl

theorem delimited_close (cs : List Char) : Delimited (')' :: cs) := by
  rintro c ⟨⟩
  exact Or.inr rfl

namespace Unbroken

variable {w v r s : List Char}

theorem takeWhile_append (hw : Unbroken w) (hr : Delimited r) : (w ++ r).takeWhile isInk = w := by
  rw [List.takeWhile_append_of_pos hw.ink]
  cases r with
  | nil => exact List.append_nil w
  | cons c cs =>
    have hc : isInk c = false := by rcases hr c rfl with rfl | rfl <;> rfl
    rw [List.takeWhile_cons, hc]
    exact List.append_nil w

/-- A word in front of a delimiter is known, and so is what follows. -/
theorem append_inj (hw : Unbroken w) (hv : Unbroken v) (hr : Delimited r) (hs : Delimited s)
    (h : w ++ r = v ++ s) : w = v ∧ r = s := by
  have hwords := congrArg (List.takeWhile isInk) h
  rw [hw.takeWhile_append hr, hv.takeWhile_append hs] at hwords
  subst hwords
  exact ⟨rfl, List.append_cancel_left h⟩

theorem ne_open (hw : Unbroken w) : w ++ r ≠ '(' :: s := by
  intro h
  obtain ⟨c, cs, rfl⟩ := List.exists_cons_of_ne_nil hw.ne_nil
  have hc := hw.ink c List.mem_cons_self
  rw [(List.cons.inj h).1] at hc
  cases hc

end Unbroken

/-! ## Names -/

theorem continuesIdent_of_beginsIdent {c : Char} (h : beginsIdent c = true) :
    continuesIdent c = true := by
  simp only [beginsIdent, continuesIdent, Bool.or_eq_true, Bool.and_eq_true] at h ⊢
  rcases h with h | ⟨hf, h | h⟩
  · exact Or.inl (Or.inl h)
  · exact Or.inr ⟨hf, Or.inl (Or.inl h)⟩
  · exact Or.inr ⟨hf, Or.inr h⟩

structure SpellsIdent (w : List Char) : Prop where
  begins : ∃ c cs, w = c :: cs ∧ beginsIdent c = true
  continues : ∀ c ∈ w, continuesIdent c = true

structure SpellsOperator (w : List Char) : Prop where
  ne_nil : w ≠ []
  symbols : ∀ c ∈ w, isSymbol c = true

theorem SpellsIdent.unbroken {w : List Char} (h : SpellsIdent w) : Unbroken w := by
  obtain ⟨c, cs, rfl, -⟩ := h.begins
  exact ⟨List.cons_ne_nil c cs, fun d hd =>
    isInk_of continuesIdent (by decide) (h.continues d hd)⟩

theorem SpellsOperator.unbroken {w : List Char} (h : SpellsOperator w) : Unbroken w :=
  ⟨h.ne_nil, fun d hd => isInk_of isSymbol (by decide) (h.symbols d hd)⟩

/-- An identifier begins as none of the signs of a type does. -/
theorem SpellsIdent.ne_cons {w cs : List Char} {c : Char} (h : SpellsIdent w)
    (hc : beginsIdent c = false) : w ≠ c :: cs := by
  rintro rfl
  obtain ⟨d, ds, heq, hd⟩ := h.begins
  cases heq
  rw [hc] at hd
  cases hd

structure Token.Named (t : Token) : Prop where
  ident : t.kind = .ident → SpellsIdent t.lexeme.toList
  operator : t.kind = .symbol ∨ t.kind = .minus → SpellsOperator t.lexeme.toList

namespace Lexeme

theorem named_ident {c : Char} (h : beginsIdent c = true) (cs : List Char) :
    (ident c cs).token.Named := by
  have hkind : (ident c cs).token.kind = wordKind (c :: cs.takeWhile continuesIdent) := rfl
  have hlexeme : (ident c cs).token.lexeme.toList = c :: cs.takeWhile continuesIdent :=
    String.toList_ofList
  constructor
  · intro
    rw [hlexeme]
    exact ⟨⟨c, _, rfl, h⟩, List.forall_mem_cons.2
      ⟨continuesIdent_of_beginsIdent h, List.all_eq_true.1 List.all_takeWhile⟩⟩
  · intro hk
    rw [hkind] at hk
    rcases wordKind_cases (c :: cs.takeWhile continuesIdent) with
      ⟨hl, -⟩ | ⟨hl, -⟩ | ⟨hl, -⟩ | hl <;>
      rcases hk with hk | hk <;> cases hl.symm.trans hk

theorem named_symbol {c : Char} (h : isSymbol c = true) (cs : List Char) :
    (symbol c cs).token.Named := by
  have hkind : (symbol c cs).token.kind = symbolKind (c :: cs.takeWhile isSymbol) := rfl
  have hlexeme : (symbol c cs).token.lexeme.toList = c :: cs.takeWhile isSymbol :=
    String.toList_ofList
  constructor
  · intro hk
    rw [hkind] at hk
    rcases symbolKind_cases (c :: cs.takeWhile isSymbol) with ⟨hl, -⟩ | ⟨hl, -⟩ | ⟨hl, -⟩ | hl <;>
      cases hl.symm.trans hk
  · intro
    rw [hlexeme]
    exact ⟨List.cons_ne_nil _ _, List.forall_mem_cons.2 ⟨h, List.all_eq_true.1 List.all_takeWhile⟩⟩

theorem named_scan {c : Char} (h : beginsToken c = true) (cs : List Char) :
    (scan c cs).token.Named := by
  rcases scan_cases h cs with ⟨hi, hs⟩ | ⟨-, hs⟩ | ⟨k, hk, hs⟩ | ⟨hi, hs⟩ <;> rw [hs]
  · exact named_ident hi cs
  · have hk : (number (c :: cs)).token.kind = (Numeral.read (c :: cs)).1.kind := rfl
    constructor <;> rw [hk] <;>
      rcases Numeral.kind_cases (Numeral.read (c :: cs)).1 with h | h | h <;> rw [h] <;> simp
  · unfold single? at hk
    split at hk <;> cases hk <;> exact ⟨by simp [token], by simp [token]⟩
  · exact named_symbol hi cs

end Lexeme

theorem Tokens.named (x : Lexer) : ∀ e ∈ (ofLexer x).entries, e.token.Named := by
  intro e hm
  obtain ⟨c, cs, hc, he⟩ := exists_scan x e hm
  rw [he]
  exact Lexeme.named_scan hc cs

/-! ## Leaves -/

inductive Expr.IsLeaf : Expr → Prop where
  | name {n : Name} (h : SpellsIdent n.value.toList ∨ SpellsOperator n.value.toList) :
    IsLeaf (.name n)
  | integer {v : Nat} {loc : Location} : IsLeaf (.integer v loc)
  | float {v : Double} {loc : Location} (h : v.isFinite = true) : IsLeaf (.float v loc)
  | bad {loc : Location} : IsLeaf (.bad loc)

inductive WordClass where
  | name
  | integer
  | float
  | bad
deriving DecidableEq

def wordClass (w : List Char) : WordClass :=
  if w = "<bad>".toList then .bad
  else if (Double.splitSign w).2.head?.any Char.isDigit then
    if w.any fun c => c = '.' || c = 'e' then .float else .integer
  else .name

theorem wordClass_number {w ds : List Char} {d : Char}
    (h : (Double.splitSign w).2 = d :: ds) (hd : d.isDigit = true) :
    wordClass w = if w.any fun c => c = '.' || c = 'e' then .float else .integer := by
  have hbad : w ≠ "<bad>".toList := by
    rintro rfl
    cases h
    cases hd
  rw [wordClass, if_neg hbad, h]
  exact if_pos hd

/-- Runes of a kind that no digit belongs to are no digits. -/
theorem not_isDigit_of (p : Char → Bool)
    (hp : hexDigits.all (fun c => !c.isDigit || !p c) = true) {c : Char} (hc : p c = true) :
    c.isDigit = false := by
  cases hd : c.isDigit with
  | false => rfl
  | true =>
    have hno := of_isDigit (fun c => !p c) hp hd
    rw [hc] at hno
    cases hno

theorem wordClass_ident {w : List Char} (h : SpellsIdent w) : wordClass w = .name := by
  obtain ⟨c, cs, rfl, hc⟩ := h.begins
  have hbad : c :: cs ≠ "<bad>".toList := h.ne_cons (by decide)
  have hsign : Double.splitSign (c :: cs) = (false, c :: cs) := by
    unfold Double.splitSign
    split
    · next heq => exact absurd heq (h.ne_cons (by decide))
    · next heq => exact absurd heq (h.ne_cons (by decide))
    · rfl
  have hdigit : c.isDigit = false := not_isDigit_of beginsIdent (by decide) hc
  rw [wordClass, if_neg hbad, hsign]
  exact if_neg (by simp [hdigit])

theorem wordClass_operator {w : List Char} (h : SpellsOperator w) : wordClass w = .name := by
  have hbad : w ≠ "<bad>".toList := by
    rintro rfl
    have hb := h.symbols 'b' (by decide)
    cases hb
  have hdigit : ∀ c ∈ w, c.isDigit = false := fun c hc =>
    not_isDigit_of isSymbol (by decide) (h.symbols c hc)
  have hsub : ∀ c ∈ (Double.splitSign w).2, c ∈ w := by
    unfold Double.splitSign
    split
    · exact fun c hc => List.mem_cons_of_mem _ hc
    · exact fun c hc => List.mem_cons_of_mem _ hc
    · exact fun c hc => hc
  rw [wordClass, if_neg hbad]
  refine if_neg ?_
  cases hrest : (Double.splitSign w).2 with
  | nil => exact Bool.false_ne_true
  | cons c cs =>
    have hc := hdigit c (hsub c (by rw [hrest]; exact List.mem_cons_self))
    simp [hc]

theorem toList_natCast (v : Nat) : (toString (v : Int)).toList = Nat.toDigits 10 v := by
  rw [Int.toString_eq_repr]
  exact Nat.toList_repr

theorem unbroken_digits (n : Nat) : Unbroken (Nat.toDigits 10 n) :=
  ⟨Nat.toDigits_ne_nil, fun c hc =>
    isInk_of Char.isDigit (by decide) (Double.areDigits_toDigits n c hc)⟩

theorem unbroken_double {x : Double} (h : x.isFinite = true) : Unbroken x.text.toList := by
  have hdecimal := Double.isDecimal_magnitudeText Double.plainLayout x
  obtain ⟨d, ds, hcs, -⟩ := hdecimal.begins
  rw [Double.toList_text h]
  refine ⟨by rw [hcs]; simp, fun c hc =>
    isInk_of Double.isNumeric (by decide) ?_⟩
  rcases List.mem_append.1 hc with hc | hc
  · cases hneg : x.isNegative <;> rw [hneg] at hc
    · cases hc
    · cases List.mem_singleton.1 hc
      rfl
  · exact hdecimal.numeric c hc

theorem wordClass_double {x : Double} (h : x.isFinite = true) :
    wordClass x.text.toList = .float := by
  have hdecimal := Double.isDecimal_magnitudeText Double.plainLayout x
  obtain ⟨d, ds, hcs, hd⟩ := hdecimal.begins
  rw [wordClass_number ((congrArg Prod.snd (Double.splitSign_text h)).trans hcs) hd]
  refine if_pos (List.any_eq_true.2 ?_)
  rw [Double.toList_text h]
  rcases hdecimal.marked with hmark | hmark
  · exact ⟨'.', List.mem_append_right _ hmark, rfl⟩
  · exact ⟨'e', List.mem_append_right _ hmark, rfl⟩

theorem wordClass_digits (n : Nat) : wordClass (Nat.toDigits 10 n) = .integer := by
  obtain ⟨d, ds, hcs, hd⟩ := Double.exists_toDigits n
  have hsign : (Double.splitSign (Nat.toDigits 10 n)).2 = d :: ds := by
    rw [hcs, Double.splitSign_of_digit hd]
  rw [wordClass_number hsign hd]
  refine if_neg ?_
  rw [Bool.not_eq_true, List.any_eq_false]
  intro c hc
  have hno := of_isDigit (fun c => !(c = '.' || c = 'e')) (by decide)
    (Double.areDigits_toDigits n c hc)
  simpa using hno

namespace Expr

variable {x y : Expr}

theorem IsLeaf.unbroken (h : x.IsLeaf) : Unbroken x.text.toList := by
  cases h with
  | name h =>
    rw [text]
    exact h.elim SpellsIdent.unbroken SpellsOperator.unbroken
  | integer =>
    rw [text, toList_natCast]
    exact unbroken_digits _
  | float h =>
    rw [text]
    exact unbroken_double h
  | bad =>
    rw [text]
    exact ⟨by decide, List.all_eq_true.1 (by decide)⟩

def leafClass : Expr → Option WordClass
  | name _ => some .name
  | integer _ _ => some .integer
  | float _ _ => some .float
  | bad _ => some .bad
  | call _ | field _ | func _ => none

theorem IsLeaf.leafClass (h : x.IsLeaf) : x.leafClass = some (wordClass x.text.toList) := by
  cases h with
  | name h =>
    rw [text]
    exact congrArg some (h.elim wordClass_ident wordClass_operator).symm
  | integer =>
    rw [text, toList_natCast, wordClass_digits]
    rfl
  | float h =>
    rw [text, wordClass_double h]
    rfl
  | bad =>
    rw [text]
    rfl

/-- Leaves with one text are one leaf up to where they stand. -/
theorem IsLeaf.eq_of_text (hx : x.IsLeaf) (hy : y.IsLeaf) (h : x.text.toList = y.text.toList) :
    x.relocate away = y.relocate away := by
  have hclass : x.leafClass = y.leafClass := by rw [hx.leafClass, hy.leafClass, h]
  cases hx with
  | @name n hn =>
    cases hy with
    | @name m hm =>
      have hvalue : n.value = m.value := by
        rw [text, text] at h
        exact String.toList_inj.1 h
      rw [relocate, relocate, Name.relocate, Name.relocate, hvalue]
      rfl
    | _ => cases hclass
  | @integer v loc =>
    cases hy with
    | @integer w loc' =>
      rw [text, text, toList_natCast, toList_natCast] at h
      have hvalue : v = w := by
        rw [← Nat.ofDigitChars_ten_toDigits (n := v), h, Nat.ofDigitChars_ten_toDigits]
      rw [relocate, relocate, hvalue]
      rfl
    | _ => cases hclass
  | @float v loc hv =>
    cases hy with
    | @float w loc' hw =>
      have hvalue : v = w := by
        rw [text, text] at h
        exact Double.eq_of_text_eq hv hw (String.toList_inj.1 h)
      rw [relocate, relocate, hvalue]
      rfl
    | _ => cases hclass
  | bad =>
    cases hy with
    | bad => rw [relocate, relocate]; rfl
    | _ => cases hclass

end Expr
end FrontEnd
