import FrontEnd.Proofs.Grammar.Locations

/-!
# What introduces a declaration

A declaration is located at its keyword or at its name, and a signature of a block at its
name.  A keyword or an identifier is the first token of what it introduces.  An operator is
not: it stands in parentheses, and the location is that of the operator within them.

`File.introduced` cuts the tokens of an accepted file into its declarations, and those of
each block into its signatures, and says of each piece which of its tokens it is located at.
-/

namespace FrontEnd

/-- The tokens `es` are those of the items `as`, with separators before, between and after
them, where `Item a es` says that `es` are the tokens of `a`. -/
inductive Listed {α : Type} (Item : α → List Entry → Prop) : List α → List Entry → Prop where
  | nil {es : List Entry} (h : Separators es) : Listed Item [] es
  | cons {a : α} {as : List α} {es fs gs : List Entry} (h : Separators es) (ha : Item a fs)
      (hs : Listed Item as gs) : Listed Item (a :: as) (es ++ (fs ++ gs))

/-- What has the tokens `es` is located at the first of them, or at the operator if that
stands in parentheses there. -/
inductive Introduces (path : String) (loc : Location) : List Entry → Prop where
  | first {e : Entry} {es : List Entry} (he : ¬ e.Is .parenLeft) (hloc : loc = e.loc path) :
    Introduces path loc (e :: es)
  | operator {l o r : Entry} {es : List Entry} (hl : l.Is .parenLeft) (ho : o.IsOperator)
      (hr : r.Is .parenRight) (hpos : l.pos < o.pos) (hloc : loc = o.loc path) :
    Introduces path loc (l :: o :: r :: es)

structure Signature.Introduced (path : String) (s : Signature) (es : List Entry) : Prop where
  derives : Derives path (.signature s) es
  introduces : Introduces path s.loc es

/-- A declaration, its tokens and where it stands, and the same for the signatures in its
braces. -/
structure Decl.Introduced (path : String) (d : Decl) (es : List Entry) : Prop where
  derives : Derives path (.decl d) es
  introduces : Introduces path d.loc es
  members : ∀ b, d = .enumeration b ∨ d = .sealed b → ∃ fs l gs r,
    es = fs ++ l :: (gs ++ [r]) ∧ l.Is .braceLeft ∧ r.Is .braceRight ∧
      Listed (Signature.Introduced path) b.members gs

theorem InOrder.item_and_rest {es fs gs : List Entry} (h : InOrder (es ++ (fs ++ gs))) :
    InOrder fs ∧ InOrder gs := by
  have hrest : InOrder (fs ++ gs) := h.sublist (List.sublist_append_right es _)
  exact ⟨hrest.sublist (List.sublist_append_left fs gs),
    hrest.sublist (List.sublist_append_right fs gs)⟩

namespace Introduces

variable {path : String} {loc : Location} {e : Entry} {es : List Entry}

/-- Only a parenthesis keeps the location from being that of the first token. -/
theorem eq_first_iff (h : Introduces path loc (e :: es)) :
    loc = e.loc path ↔ ¬ e.Is .parenLeft := by
  cases h with
  | first he hloc => exact ⟨fun _ => he, fun _ => hloc⟩
  | @operator _ o _ _ hl ho hr hpos hloc =>
    refine ⟨fun heq => ?_, fun he => absurd hl he⟩
    have hsame : o.pos = e.pos := congrArg Location.position (hloc.symm.trans heq)
    exact absurd hsame.symm (Position.ne_of_lt hpos)

end Introduces

namespace Derives

variable {path : String} {es fs : List Entry}

theorem introduces_declName {n : Name} (h : Derives path (.declName n) es)
    (ho : InOrder (es ++ fs)) : Introduces path n.loc (es ++ fs) := by
  cases h with
  | @declIdent e he =>
    refine .first (fun hl => ?_) rfl
    cases he.symm.trans hl
  | declOperator hl hop hr =>
    have hpos := (List.pairwise_cons.1 ho).1
    exact .operator hl hop hr (hpos _ List.mem_cons_self) rfl

theorem introduced_signature {s : Signature} (h : Derives path (.signature s) es)
    (ho : InOrder es) : s.Introduced path es := by
  refine ⟨h, ?_⟩
  cases h with
  | signature hn hc ht => exact hn.introduces_declName ho

theorem listed_members {ss : List Signature} (h : Derives path (.members ss) es)
    (ho : InOrder es) : Listed (Signature.Introduced path) ss es := by
  induction ss generalizing es with
  | nil =>
    cases h with
    | noMembers h => exact .nil h
  | cons s ss ih =>
    cases h with
    | @moreMembers _ _ es fs gs h hs hss =>
      obtain ⟨hfirst, hlast⟩ := ho.item_and_rest
      exact .cons h (hs.introduced_signature hfirst) (ih hss hlast)

/-- The signatures of a block stand in its braces, behind its name and parameters. -/
theorem listed_block {b : Block} (h : Derives path (.block b) es) (ho : InOrder es) :
    ∃ fs l gs r, es = fs ++ l :: (gs ++ [r]) ∧ l.Is .braceLeft ∧ r.Is .braceRight ∧
      Listed (Signature.Introduced path) b.members gs := by
  cases h with
  | @block e l r ns ss loc es fs he hns hl hss hr =>
    have hbraces : InOrder fs := ho.sublist (by
      have hclose : fs.Sublist (fs ++ [r]) := List.sublist_append_left fs [r]
      have hopen : fs.Sublist (es ++ l :: (fs ++ [r])) :=
        (hclose.cons l).trans (List.sublist_append_right es _)
      exact hopen.cons e)
    exact ⟨e :: es, l, fs, r, rfl, hl, hr, hss.listed_members hbraces⟩

theorem introduced_decl {d : Decl} (h : Derives path (.decl d) es) (ho : InOrder es) :
    d.Introduced path es := by
  refine ⟨h, ?_, ?_⟩
  · cases h with
    | declSignature h => exact (h.introduced_signature ho).introduces
    | function hn hp ha hx => exact hn.introduces_declName ho
    | enumeration hw h hb | sealed hw h hb =>
      refine .first (fun hl => ?_) hb
      cases hw.symm.trans hl
  · intro b hb
    cases h with
    | declSignature h | function hn hp ha hx => rcases hb with hb | hb <;> cases hb
    | @enumeration w _ es hw h _ | @sealed w _ es hw h _ =>
      obtain ⟨fs, l, gs, r, rfl, hl, hr, hs⟩ := h.listed_block (List.pairwise_cons.1 ho).2
      refine ⟨w :: fs, l, gs, r, rfl, hl, hr, ?_⟩
      rcases hb with hb | hb <;> cases hb
      exact hs

theorem listed_decls {ds : List Decl} (h : Derives path (.decls ds) es) (ho : InOrder es) :
    Listed (Decl.Introduced path) ds es := by
  induction ds generalizing es with
  | nil =>
    cases h with
    | noDecls h => exact .nil h
  | cons d ds ih =>
    cases h with
    | @moreDecls _ _ es fs gs h hd hds =>
      obtain ⟨hfirst, hlast⟩ := ho.item_and_rest
      exact .cons h (hd.introduced_decl hfirst) (ih hds hlast)

end Derives

/-- The declarations of an accepted file and the signatures of its blocks are located at
their first tokens, except that one with an operator for a name is located at the operator,
behind the parenthesis that it begins with. -/
theorem File.introduced {path : String} {reads : List Read} {f : File} {log : List Diagnostic}
    (h : File.ofReads path reads = (.ok f, log)) :
    Listed (Decl.Introduced path) f.decls (Tokens.ofText (.ofReads reads)).entries ∧
      ∀ e ∈ (Tokens.ofText (.ofReads reads)).entries,
        (Text.ofReads reads).Shows e.pos e.token.lexeme :=
  ⟨(derives_file h).listed_decls (Tokens.inOrder _),
    Tokens.shows (Lexer.standsIn_ofText (.ofReads reads))⟩

theorem File.introduced_block : ∃ f log,
    File.ofReads "" [.bytes "seal S a \x7b (+) : a; b : a \x7d\n(-) x = x".toUTF8] =
      (.ok f, log) ∧ f.decls.length = 2 ∧
    Listed (Decl.Introduced "") f.decls (Tokens.ofText (.ofReads
      [.bytes "seal S a \x7b (+) : a; b : a \x7d\n(-) x = x".toUTF8])).entries := by
  have hok : (File.ofReads "" [.bytes
      "seal S a \x7b (+) : a; b : a \x7d\n(-) x = x".toUTF8]).1.toOption.map
        (·.decls.length) = some 2 := by
    decide +kernel
  rcases hf : File.ofReads "" [.bytes
    "seal S a \x7b (+) : a; b : a \x7d\n(-) x = x".toUTF8] with ⟨e | f, log⟩
  · rw [hf] at hok
    cases hok
  · rw [hf] at hok
    exact ⟨f, log, rfl, Option.some.inj hok, (introduced hf).1⟩

/-- A declaration may stand behind its first token. -/
theorem File.exists_behind_first : ∃ f log d,
    File.ofReads "" [.bytes "(+) : a".toUTF8] = (.ok f, log) ∧ f.decls = [d] ∧
      (Tokens.ofText (.ofReads [.bytes "(+) : a".toUTF8])).entries.head?.map (·.pos) =
        some ⟨1, 1⟩ ∧
      d.loc.position = ⟨1, 2⟩ := by
  have hok : (File.ofReads "" [.bytes "(+) : a".toUTF8]).1.toOption.map
      (·.decls.map (·.loc.position)) = some [⟨1, 2⟩] := by
    decide +kernel
  have hfirst : (Tokens.ofText (.ofReads [.bytes "(+) : a".toUTF8])).entries.head?.map (·.pos) =
      some ⟨1, 1⟩ := by
    decide +kernel
  rcases hf : File.ofReads "" [.bytes "(+) : a".toUTF8] with ⟨e | f, log⟩
  · rw [hf] at hok
    cases hok
  · rw [hf] at hok
    obtain ⟨d, hd, hpos⟩ := List.map_eq_singleton_iff.1 (Option.some.inj hok)
    exact ⟨f, log, d, rfl, hd, hfirst, hpos⟩

end FrontEnd
