import FrontEnd.Tree.Equality
import FrontEnd.Proofs.Grammar.Calls
import FrontEnd.Proofs.Grammar.Literals

/-!
# No bad literal without a complaint

A literal without a value is a node of its own kind in a tree.  The parser reports the ones
with too large a value; of the malformed ones it says nothing, since the scanner has found
fault with their text.
-/

namespace FrontEnd

/-- The literal at `loc` has been reported, on its line and in one of its columns or the one
behind it. -/
def Parser.Complained (reads : List Read) (t : Parser) (loc : Location) : Prop :=
  ∃ e ∈ (Tokens.ofText (.ofReads reads)).entries, (e.Is .integer ∨ e.Is .float) ∧
    loc = e.loc t.path ∧ ∃ d ∈ t.log.toList, d.pos.line = loc.line ∧ loc.col ≤ d.pos.col ∧
      d.pos.col ≤ loc.col + e.token.lexeme.length

namespace Literal

/-- A literal without a value is malformed, or its value is too large. -/
theorem malformed_or_excess {α : Type} {value : String → Except LiteralError α}
    (tooLarge : String → Problem) {s : String} (h : (value s).toOption = none) :
    value s = .error .malformed ∨ ∃ p, excess? value tooLarge s = some p := by
  cases hv : value s with
  | ok v =>
    rw [hv] at h
    cases h
  | error err =>
    cases err with
    | malformed => exact Or.inl rfl
    | overflow => exact Or.inr ⟨tooLarge s, by rw [excess?, hv]⟩

end Literal

namespace Expr

theorem fst_eq_none_of_bad_integer {v : Parse.Converted Nat} {loc : Location}
    (h : Node.bad loc = (ofInteger v).node) : v.1 = none := by
  rcases v with ⟨_ | v, l⟩
  · rfl
  · cases h

theorem fst_eq_none_of_bad_float {v : Parse.Converted Double} {loc : Location}
    (h : Node.bad loc = (ofFloat v).node) : v.1 = none := by
  rcases v with ⟨_ | v, l⟩
  · rfl
  · cases h

/-- Nothing else is the same as a literal without a value. -/
theorem eq_bad_of_same {x : Expr} {loc : Location} (h : x.same (.bad loc) = true) :
    x = .bad loc := by
  cases x with
  | bad l =>
    rw [same, decide_eq_true_eq] at h
    rw [h]
  | _ => simp [same] at h

end Expr

namespace Entry

variable {e : Entry} {path : String} {loc : Location}

/-- Where a literal without a value is read, it is malformed, or the parser reports it. -/
theorem bad_cases (h : (Node.bad loc).BeginsAt path e) :
    (e.Is .integer ∨ e.Is .float) ∧ (e.IsMalformed ∨ ∃ p, e.excess? = some p) := by
  rcases h with ⟨hk, hbad⟩ | ⟨hk, hbad⟩
  · rw [excess?_integer hk]
    have hcases :=
      Literal.malformed_or_excess .integerOverflow (Expr.fst_eq_none_of_bad_integer hbad)
    exact ⟨Or.inl hk, hcases.imp_left fun hv => Or.inl ⟨hk, hv⟩⟩
  · rw [excess?_float hk]
    have hcases :=
      Literal.malformed_or_excess .floatOverflow (Expr.fst_eq_none_of_bad_float hbad)
    exact ⟨Or.inr hk, hcases.imp_left fun hv => Or.inr ⟨hk, hv⟩⟩

end Entry

namespace Parser

variable {path : String} {reads : List Read} {s t : Parser} {es : List Entry}

/-- The bad literals among what is passed have been complained about. -/
theorem Reached.complained (hs : Reached path reads s) (h : Passes s es t) {e : Entry}
    (he : e ∈ es) {loc : Location} (hbad : (Node.bad loc).BeginsAt path e) :
    t.Complained reads loc := by
  obtain ⟨hpath, htold, -, hsub⟩ := hs.passes h
  obtain ⟨hreports, hexcess⟩ := htold.passes h he
  obtain ⟨hk, hcases⟩ := Entry.bad_cases hbad
  have hloc : loc = e.loc t.path := by
    rw [h.path, hpath]
    exact hbad.loc
  have hline : loc.line = e.pos.line := congrArg Location.line hloc
  have hcol : loc.col = e.pos.col := congrArg Location.col hloc
  refine ⟨e, hsub he, hk, hloc, ?_⟩
  rw [hline, hcol]
  rcases hcases with hm | ⟨p, hp⟩
  · obtain ⟨n, hn⟩ := Tokens.exists_numeral _ e (hsub he) hk
    obtain ⟨defect, offset, hd, -, hoffset⟩ := hn.complaint hm
    exact ⟨_, hreports _ hd, rfl, Nat.le_add_right _ _, Nat.add_le_add_left hoffset _⟩
  · exact ⟨_, hexcess p hp, rfl, Nat.le_refl _, Nat.le_add_right _ _⟩

/-- Literals without a value in a tree that is read from what is passed have been reported. -/
theorem Reached.complained_within (hs : Reached path reads s) (h : Passes s es t) {ph : Phrase}
    (hd : Derives s.path ph es) {r : Node} (hr : r ∈ ph.roots) {loc : Location}
    (hbad : r.Within (.bad loc)) : t.Complained reads loc := by
  obtain ⟨hpath, -, ho, -⟩ := hs.passes h
  rw [hpath] at hd
  obtain ⟨e, he, hbegin⟩ := ((hd.placed ho).sound r hr _ hbad).token
  exact hs.complained h he hbegin

end Parser

/-- Wherever a parser has come to by calls on a text, a call that succeeds leaves no literal
without a value in its tree that was not reported.  The scanner accounts for all that are
malformed: what it finds no fault with, but for separators, is malformed to no converter. -/
theorem Parse.complains {path : String} {reads : List Read} {s : Parser}
    (hs : s.Reached path reads) (t : Parser) (loc : Location) :
    ((∀ f, file s = .ok f t → f.Contains (.bad loc) → t.Complained reads loc) ∧
      (∀ d, decl s = .ok d t → d.node.Within (.bad loc) → t.Complained reads loc) ∧
      (∀ x, expr s = .ok x t → x.node.Within (.bad loc) → t.Complained reads loc) ∧
      (∀ a, type s = .ok a t → a.node.Within (.bad loc) → t.Complained reads loc)) ∧
    ∀ e ∈ (Tokens.ofText (.ofReads reads)).entries,
      (∀ d ∈ e.reports, ∀ defect, d.problem = .numeral defect → defect = .separator) →
        (e.Is .integer → Literal.integerValue e.token.lexeme ≠ .error .malformed) ∧
        (e.Is .float → Literal.floatValue e.token.lexeme ≠ .error .malformed) := by
  refine ⟨⟨fun f h hbad => ?_, fun d h hbad => ?_, fun x h hbad => ?_, fun a h hbad => ?_⟩, ?_⟩
  · obtain ⟨es, hes, hd, -, hf⟩ := yields_file h
    obtain ⟨r, hr, hbad⟩ := hbad
    rw [hf] at hr
    exact hs.complained_within hes hd hr hbad
  · obtain ⟨es, hes, hd⟩ := yields_decl s t d h
    exact hs.complained_within hes hd (List.mem_singleton_self _) hbad
  · obtain ⟨es, hes, hd⟩ := yields_expr s t x h
    exact hs.complained_within hes hd (List.mem_singleton_self _) hbad
  · obtain ⟨es, hes, hd⟩ := yields_type s t a h
    exact hs.complained_within hes hd (List.mem_singleton_self _) hbad
  · intro e he hquiet
    have hsound : e.Is .integer ∨ e.Is .float → ¬ e.IsMalformed := by
      intro hk hm
      obtain ⟨n, hn⟩ := Tokens.exists_numeral _ e he hk
      obtain ⟨defect, offset, hd, hne, -⟩ := hn.complaint hm
      exact hne (hquiet _ hd defect rfl)
    exact ⟨fun hk hv => hsound (Or.inl hk) (Or.inl ⟨hk, hv⟩),
      fun hk hv => hsound (Or.inr hk) (Or.inr ⟨hk, hv⟩)⟩

/-- A malformed number behind a type that has been read before it. -/
theorem Parse.complains_second :
    let reads := [Read.bytes "T -> T 0b2".toUTF8]
    let s := type.after (.ofReads "" reads)
    s.Reached "" reads ∧
      ∃ t, expr s = .ok (.bad ⟨"", 1, 8⟩) t ∧ t.Complained reads ⟨"", 1, 8⟩ := by
  intro reads s
  have hs : s.Reached "" reads := .type .start
  have hbad : (expr.run' s).any (·.same (.bad ⟨"", 1, 8⟩)) = true := by decide +kernel
  unfold EStateM.run' EStateM.run at hbad
  cases hx : expr s with
  | error e t =>
    rw [hx] at hbad
    cases hbad
  | ok x t =>
    rw [hx] at hbad
    obtain rfl := Expr.eq_bad_of_same hbad
    exact ⟨hs, t, rfl, (complains hs t _).1.2.2.1 _ hx .self⟩

end FrontEnd
