import FrontEnd.Proofs.Grammar.Calls
import FrontEnd.Proofs.Grammar.Invariant

/-!
# What an error blames

An error for want of a token is about the token that the parser stands on.  The one error
of another kind is made where a colon follows a type that is more than names; it is about a
part of that type, so it looks back at a token that has been taken.

What had been taken when a part of a production failed was taken by the productions around
it.  So `Accurate o` is about parses in a call that began at `o`.
-/

namespace FrontEnd

/-- What an error says of a call that has taken some tokens and has stopped at `t`. -/
def SyntaxError.Describes (path : String) (taken : List Entry) (t : Parser) : SyntaxError → Prop
  | .expected _ found loc => found = t.current.token ∧ loc = .ofPosition path t.current.pos
  | .invalidField loc => t.current.Is .colon ∧
      ∃ e ∈ taken, loc = .ofPosition path e.pos ∧ e.pos < t.current.pos

namespace Parser

/-- The parser has come from `o` to `s` by taking tokens. -/
structure Since (o : Parser) (taken : List Entry) (s : Parser) : Prop where
  entries : o.tokens.entries = taken ++ s.tokens.entries
  path : s.path = o.path

variable {o s t : Parser} {taken es : List Entry}

theorem Since.refl (o : Parser) : o.Since [] o := ⟨rfl, rfl⟩

theorem Since.passes (h : o.Since taken s) (hp : Passes s es t) : o.Since (taken ++ es) t := by
  refine ⟨?_, hp.path.trans h.path⟩
  rw [h.entries, hp.entries, List.append_assoc]

theorem Since.advance (h : o.Since taken s) : ∃ fs, o.Since fs s.advance := by
  cases hs : s.tokens.entries with
  | nil =>
    refine ⟨taken, ?_⟩
    unfold Parser.advance
    rwa [hs]
  | cons e rest =>
    refine ⟨taken ++ [e], ?_, s.path_advance.trans h.path⟩
    unfold Parser.advance
    rw [h.entries, hs, List.append_assoc]
    rfl

/-- A type in front of a colon has been taken, and all of its parts stand before the colon. -/
theorem Since.describes (h : o.Since taken s) (ho : InOrder o.tokens.entries)
    (hp : Passes s es t) {a : Ty} (hd : Derives s.path (.type a) es)
    (hcolon : t.current.Is .colon) {m : Node} (hm : a.node.Within m) :
    (SyntaxError.invalidField m.loc).Describes o.path (taken ++ es) t := by
  have hne : t.current.token.kind ≠ .eof := by
    rw [hcolon]
    decide
  rw [(h.passes hp).entries, entries_eq hne] at ho
  obtain ⟨hfront, -, hbefore⟩ := List.pairwise_append.1 ho
  have hes : InOrder es := (List.pairwise_append.1 hfront).2.1
  obtain ⟨e, he, hbegin⟩ := ((hd.placed hes).sound _ (List.mem_singleton_self _) m hm).token
  have hmem : e ∈ taken ++ es := List.mem_append_right _ he
  refine ⟨hcolon, e, hmem, ?_, hbefore e hmem _ List.mem_cons_self⟩
  rw [← h.path]
  exact hbegin.loc

end Parser

namespace Parse

open FrontEnd.Parser

variable {o : Parser}

/-- In a call that began at `o`, all that `x` does is to take tokens, and if it fails its error
describes where the call has come to. -/
abbrev Accurate {α : Type} (o : Parser) (x : Parse α) : Prop :=
  Holds (fun s => ∃ es, o.Since es s) (fun e t => ∃ es, o.Since es t ∧ e.Describes o.path es t) x

theorem kept_since (o : Parser) : Kept (fun s => ∃ es, o.Since es s)
    (fun e t => ∃ es, o.Since es t ∧ e.Describes o.path es t) where
  advance := fun _ ⟨_, hs⟩ => hs.advance
  report := fun _ _ ⟨es, hs⟩ => ⟨es, hs.entries, hs.path⟩
  fail := fun s _ ⟨es, hs⟩ => ⟨es, hs, rfl, by rw [← hs.path]; rfl⟩

theorem closed_accurate (o : Parser) : Closed (Accurate o) :=
  (kept_since o).closed

/-- A type has been taken in front of the colon, so one of its parts may be to blame. -/
theorem accurate_type (ho : InOrder o.tokens.entries) : Accurate o type := by
  refine (kept_since o).type fun ⟨taken, hs⟩ hp hd hcolon hn => ?_
  obtain ⟨m, hm, rfl⟩ := Ty.fieldNames_eq_error hn
  exact ⟨_, hs.passes hp, hs.describes ho hp hd hcolon hm⟩

end Parse

namespace Parser

variable {path : String} {reads : List Read} {s t : Parser} {es : List Entry}

theorem Reached.inOrder (hs : Reached path reads s) : InOrder s.tokens.entries := by
  obtain ⟨n, hn⟩ := hs.steps
  rw [hn.entries]
  exact (Tokens.inOrder _).sublist (List.drop_sublist _ _)

theorem Steps.passes {n : Nat} (h : s.Steps n t) (hes : s.Since es t) : Passes s es t := by
  have hleft : t.left + n = s.left := h.left
  have htaken : s.left = es.length + t.left := by
    unfold Parser.left
    rw [hes.entries, List.length_append]
  have hn : n = es.length := by omega
  exact ⟨hes.entries, hn ▸ h.reached⟩

end Parser

namespace Parse

def error? {α : Type} (x : Parse α) (s : Parser) : Option SyntaxError :=
  match x s with
  | .ok _ _ => none
  | .error e _ => some e

variable {α : Type} {path : String} {reads : List Read} {s t : Parser} {e : SyntaxError}
  {x : Parse α}

theorem error?_eq_some : x.error? s = some e ↔ x s = .error e (x.after s) := by
  unfold error? after
  cases x s <;> simp

theorem Accurate.describes (hx : Accurate s x) (hs : s.Reached path reads)
    (hsteps : ∃ n, s.Steps n (x.after s)) (he : x s = .error e t) :
    ∃ taken, Passes s taken t ∧ e.Describes path taken t := by
  obtain ⟨taken, htaken, hdesc⟩ := (hx s ⟨[], .refl s⟩).error he
  obtain ⟨n, hn⟩ := hsteps
  have hafter : x.after s = t := by
    unfold after
    rw [he]
  have hpath : s.path = path := (hs.passes (.refl s)).1
  rw [hafter] at hn
  rw [hpath] at hdesc
  exact ⟨taken, hn.passes htaken, hdesc⟩

/-- Wherever a parser has come to by calls on a text, a call that fails tells where it has
come to.  What it found is the current token, and the error is located there; an error about
a field is located at a token that the same call has taken, before the colon that is the
current token. -/
theorem error_describes (hs : s.Reached path reads)
    (he : file s = .error e t ∨ decl s = .error e t ∨ expr s = .error e t ∨
      type s = .error e t) :
    ∃ taken, Passes s taken t ∧ e.Describes path taken t := by
  have hc := closed_accurate s
  have ht := accurate_type hs.inOrder
  rcases he with he | he | he | he
  · exact (hc.file ht).describes hs (steps_file s) he
  · exact (hc.decl ht).describes hs (steps_decl s) he
  · exact hc.expr.describes hs (steps_expr s) he
  · exact ht.describes hs (steps_type s) he

/-- A call that fails at a parenthesis, and one from there that takes an arrow for the names
of a context. -/
theorem error_describes_arrow :
    let reads := [Read.bytes "((a -> b : T) => c".toUTF8]
    let o := Parser.ofReads "a.fe" reads
    let s := decl.after o
    let t := type.after s
    let first := SyntaxError.expected .operator ⟨.parenLeft, "("⟩ ⟨"a.fe", 1, 2⟩
    let second := SyntaxError.invalidField ⟨"a.fe", 1, 3⟩
    (decl o = .error first s ∧ ∃ taken, Passes o taken s ∧ first.Describes "a.fe" taken s) ∧
      type s = .error second t ∧ ∃ taken, Passes s taken t ∧ second.Describes "a.fe" taken t := by
  intro reads o s t first second
  have hdecl : decl o = .error first s := error?_eq_some.1 (by decide +kernel)
  have htype : type s = .error second t := error?_eq_some.1 (by decide +kernel)
  exact ⟨⟨hdecl, error_describes .start (Or.inr (Or.inl hdecl))⟩,
    htype, error_describes (.decl .start) (Or.inr (Or.inr (Or.inr htype)))⟩

end Parse
end FrontEnd
