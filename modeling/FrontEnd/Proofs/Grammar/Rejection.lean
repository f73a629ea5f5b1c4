import FrontEnd.Proofs.Grammar.Complaints
import FrontEnd.Proofs.Grammar.Numerals
import FrontEnd.Proofs.Literal.Rejection

/-!
# No value for a rejected literal

Where the scanner has found fault with more than the separators of a literal, the converter has
no value for it, so the parser makes it a bad node.  Only a float that vanishes comes out as zero.
-/

namespace FrontEnd

/-- The scanner has reported the token as a number, for more than a separator. -/
def Entry.IsRejected (e : Entry) : Prop :=
  ∃ d ∈ e.reports, ∃ defect, d.problem = .numeral defect ∧ defect ≠ .separator

namespace Entry

variable {e : Entry} {n : Numeral} {path : String} {m : Node}

theorem Reads.misshape (h : e.Reads n) (hr : e.IsRejected) : n.misshape? ≠ none := by
  obtain ⟨d, hd, defect, hp, hne⟩ := hr
  have hfault : d ∈ e.faults := List.mem_filter.2 ⟨hd, by rw [hp]; rfl⟩
  rw [h.faults, Option.mem_toList] at hfault
  obtain ⟨f, hf, rfl⟩ := Option.map_eq_some_iff.1 hfault
  intro hnone
  rw [n.fault?_eq, hnone] at hf
  obtain ⟨i, -, rfl⟩ := Option.map_eq_some_iff.1 (show n.separatorFault = some f from hf)
  exact hne (Problem.numeral.inj hp).symm

theorem Reads.rejected (h : e.Reads n) (hr : e.IsRejected) :
    (e.Is .integer → ∃ err, Literal.integerValue e.token.lexeme = .error err) ∧
    (e.Is .float → ∀ x, Literal.floatValue e.token.lexeme = .ok x ↔
      Literal.IsVanishing e.token.lexeme ∧ x = .zero) := by
  rw [← String.ofList_toList (s := e.token.lexeme), h.runes]
  constructor
  · intro hk
    have hi := Numeral.kind_eq_integer (h.kind.symm.trans hk)
    exact Literal.integerValue_error h.formed hi (h.misshape hr)
  · intro hk x
    obtain ⟨hi, hn⟩ := Numeral.kind_eq_float (h.kind.symm.trans hk)
    exact Literal.floatValue_ok_iff h.formed hi hn (h.misshape hr)

theorem Reads.node (h : e.Reads n) (hr : e.IsRejected) (hm : m.BeginsAt path e)
    (hliteral : m.isLiteral = true) : m = .bad (e.loc path) ∨
      (e.Is .float ∧ Literal.IsVanishing e.token.lexeme ∧ m = .float .zero (e.loc path)) := by
  obtain ⟨hinteger, hfloat⟩ := h.rejected hr
  rcases hm.literal hliteral with ⟨hk, rfl⟩ | ⟨hk, rfl⟩
  · obtain ⟨err, herr⟩ := hinteger hk
    rw [Entry.integer, converted, herr]
    exact Or.inl rfl
  · cases hv : Literal.floatValue e.token.lexeme with
    | error err =>
      rw [Entry.float, converted, hv]
      exact Or.inl rfl
    | ok x =>
      obtain ⟨hw, rfl⟩ := (hfloat hk x).1 hv
      rw [Entry.float, converted, hv]
      exact Or.inr ⟨hk, hw, rfl⟩

end Entry

/-- A call on `s` that comes to `t` has made the node `m`. -/
inductive Parse.Makes (s t : Parser) (m : Node) : Prop where
  | file {f : File} (h : file s = .ok f t) (hm : f.Contains m)
  | decl {d : Decl} (h : decl s = .ok d t) (hm : d.node.Within m)
  | expr {x : Expr} (h : expr s = .ok x t) (hm : x.node.Within m)
  | type {a : Ty} (h : type s = .ok a t) (hm : a.node.Within m)

theorem Parser.Reached.beginsAt {path : String} {reads : List Read} {s t : Parser} {m : Node}
    (hs : Reached path reads s) (h : Parse.Makes s t m) :
    ∃ e ∈ (Tokens.ofText (.ofReads reads)).entries, m.BeginsAt path e := by
  have hbegin : ∀ {ph : Phrase} {es : List Entry}, Passes s es t → Derives s.path ph es →
      ∀ r ∈ ph.roots, r.Within m →
        ∃ e ∈ (Tokens.ofText (.ofReads reads)).entries, m.BeginsAt path e := by
    intro ph es hes hd r hr hm
    obtain ⟨hpath, -, ho, hsub⟩ := hs.passes hes
    rw [hpath] at hd
    obtain ⟨e, he, hbegins⟩ := ((hd.placed ho).sound r hr m hm).token
    exact ⟨e, hsub he, hbegins⟩
  cases h with
  | file h hm =>
    obtain ⟨es, hes, hd, -, hf⟩ := Parse.yields_file h
    obtain ⟨r, hr, hm⟩ := hm
    rw [hf] at hr
    exact hbegin hes hd r hr hm
  | decl h hm =>
    obtain ⟨es, hes, hd⟩ := Parse.yields_decl _ _ _ h
    exact hbegin hes hd _ (List.mem_singleton_self _) hm
  | expr h hm =>
    obtain ⟨es, hes, hd⟩ := Parse.yields_expr _ _ _ h
    exact hbegin hes hd _ (List.mem_singleton_self _) hm
  | type h hm =>
    obtain ⟨es, hes, hd⟩ := Parse.yields_type _ _ _ h
    exact hbegin hes hd _ (List.mem_singleton_self _) hm

/-- Wherever a parser has come to by calls on a text, and whatever it makes of a literal that
the scanner has rejected, is a literal without a value.  Only a float that vanishes has one. -/
theorem Parse.rejects {path : String} {reads : List Read} {s : Parser}
    (hs : s.Reached path reads) : ∀ e ∈ (Tokens.ofText (.ofReads reads)).entries, e.IsRejected →
    (e.Is .integer → ∃ err, Literal.integerValue e.token.lexeme = .error err) ∧
    (e.Is .float → ∀ x, Literal.floatValue e.token.lexeme = .ok x ↔
      Literal.IsVanishing e.token.lexeme ∧ x = .zero) ∧
    ∀ t m, Makes s t m → m.isLiteral = true → m.loc = e.loc path → m = .bad (e.loc path) ∨
      (e.Is .float ∧ Literal.IsVanishing e.token.lexeme ∧ m = .float .zero (e.loc path)) := by
  intro e he hr
  refine ⟨fun hk => ?_, fun hk => ?_, fun t m hm hliteral hloc => ?_⟩
  · obtain ⟨n, hn⟩ := Tokens.exists_reads reads e he (Or.inl hk)
    exact (hn.rejected hr).1 hk
  · obtain ⟨n, hn⟩ := Tokens.exists_reads reads e he (Or.inr hk)
    exact (hn.rejected hr).2 hk
  · obtain ⟨e', he', hbegins⟩ := hs.beginsAt hm
    -- No two tokens stand at one place.
    have hsame : e' = e := by
      refine (Tokens.inOrder _).eq_of_pos he' he ?_
      rw [← hbegins.pos, Node.pos, hloc]
      rfl
    rw [hsame] at hbegins
    have hk := (hbegins.literal hliteral).imp And.left And.left
    obtain ⟨n, hn⟩ := Tokens.exists_reads reads e he hk
    exact hn.node hr hbegins hliteral

/-- A number in base two with a digit of base ten. -/
theorem Parse.rejects_binary :
    let reads := [Read.bytes "0b2".toUTF8]
    let s := Parser.ofReads "" reads
    s.Reached "" reads ∧ ∃ e ∈ (Tokens.ofText (.ofReads reads)).entries,
      e.token = ⟨.integer, "0b2"⟩ ∧ e.IsRejected ∧
      (∃ err, Literal.integerValue e.token.lexeme = .error err) ∧
      ∃ x t, expr s = .ok x t ∧ x.node = .bad (e.loc "") := by
  intro reads s
  have htoken : (Lexer.ofText (.ofReads reads)).next.current.token = ⟨.integer, "0b2"⟩ := by
    decide +kernel
  have hpos : (Lexer.ofText (.ofReads reads)).next.current.pos = ⟨1, 1⟩ := by
    decide +kernel
  have hfaults : (Lexer.ofText (.ofReads reads)).next.current.faults =
      [⟨⟨1, 3⟩, .numeral (.strayDigit '2' .binary)⟩] := by
    rw [Lexer.faults_next (Lexer.plain_ofReads reads)]
    decide +kernel
  have hmore : (Lexer.ofText (.ofReads reads)).next.current.token.kind ≠ .eof := by
    rw [htoken]
    nofun
  have he := (Tokens.ofLexer_more hmore).1 ▸ List.mem_cons_self
  have hrejected : (Lexer.ofText (.ofReads reads)).next.current.IsRejected :=
    ⟨_, (List.mem_filter.1 (hfaults ▸ List.mem_singleton_self _)).1, .strayDigit '2' .binary, rfl,
      nofun⟩
  have hs : s.Reached "" reads := .start
  obtain ⟨hinteger, -, hnode⟩ := rejects hs _ he hrejected
  have hliteral : (expr.run' s).any (fun x => x.node.isLiteral && x.node.loc = ⟨"", 1, 1⟩) =
      true := by
    decide +kernel
  unfold EStateM.run' EStateM.run at hliteral
  cases hx : expr s with
  | error e t =>
    rw [hx] at hliteral
    cases hliteral
  | ok x t =>
    rw [hx] at hliteral
    obtain ⟨hleaf, hloc⟩ := Bool.and_eq_true_iff.1 hliteral
    refine ⟨hs, _, he, htoken, hrejected, hinteger (congrArg Token.kind htoken), x, t, rfl, ?_⟩
    have hat : x.node.loc = (Lexer.ofText (.ofReads reads)).next.current.loc "" := by
      rw [of_decide_eq_true hloc, Entry.loc, hpos]
      rfl
    refine (hnode t x.node (.expr hx .self) hleaf hat).resolve_right fun hfloat => ?_
    have hkind := hfloat.1
    rw [Entry.Is, htoken] at hkind
    cases hkind

/-- A float without digits that has a value all the same. -/
theorem Parse.exists_rejected_value : ¬ ∀ (reads : List Read),
    ∀ e ∈ (Tokens.ofText (.ofReads reads)).entries, e.IsRejected →
      (e.Is .integer → ∃ err, Literal.integerValue e.token.lexeme = .error err) ∧
      (e.Is .float → ∃ err, Literal.floatValue e.token.lexeme = .error err) := by
  intro h
  have hplain := Lexer.plain_ofReads [.bytes "0xp-9223372036854775809".toUTF8]
  have htoken : (Lexer.ofText (.ofReads
      [.bytes "0xp-9223372036854775809".toUTF8])).next.current.token =
        ⟨.float, "0xp-9223372036854775809"⟩ := by
    decide +kernel
  have hfaults : (Lexer.ofText (.ofReads
      [.bytes "0xp-9223372036854775809".toUTF8])).next.current.faults =
        [⟨⟨1, 3⟩, .numeral (.noDigits .hexadecimal)⟩] := by
    rw [Lexer.faults_next hplain]
    decide +kernel
  have hmore : (Lexer.ofText (.ofReads
      [.bytes "0xp-9223372036854775809".toUTF8])).next.current.token.kind ≠ .eof := by
    rw [htoken]
    nofun
  have hreport := (List.mem_filter.1 (hfaults ▸ List.mem_singleton_self _)).1
  obtain ⟨err, herr⟩ := (h _ _ ((Tokens.ofLexer_more hmore).1 ▸ List.mem_cons_self)
    ⟨_, hreport, _, rfl, nofun⟩).2 (congrArg Token.kind htoken)
  rw [htoken] at herr
  cases herr

end FrontEnd
