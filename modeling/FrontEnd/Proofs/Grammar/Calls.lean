import FrontEnd.Proofs.Grammar.Concatenation
import FrontEnd.Proofs.Grammar.Locations

/-!
# One call after another

A parser may be asked for a file, a declaration, an expression or a type, and then for
more, whether the call before succeeded or not.  Every call only passes tokens, so wherever
the parser comes to it has passed some of the tokens of the text, and what was reported of
these it has in its log.
-/

namespace FrontEnd

namespace Parse

variable {α β : Type} {f : Location → Location} {P : TokenKind → Prop} {move : α → β}
  {x : Parse α} {x' : Parse β} {s : Parser}

theorem Local.after (h : Local f P move x x' s) : ∃ n, s.Steps n (x.after s) := by
  unfold Parse.after
  cases hx : x s with
  | ok a t =>
    obtain ⟨n, hn, -⟩ := h.ok hx
    exact ⟨n, hn⟩
  | error e t =>
    obtain ⟨-, n, hn, -⟩ := h.error hx
    exact ⟨n, hn⟩

theorem after_file (s : Parser) : file.after s = (many decl?).after s := by
  unfold Parse.after
  cases hd : many decl? s with
  | ok ds t => rw [file_ok hd]
  | error e t => rw [file_error hd]

theorem steps_file (s : Parser) : ∃ n, s.Steps n (file.after s) := by
  rw [after_file]
  exact (local_decls (f := id)).after

theorem steps_decl (s : Parser) : ∃ n, s.Steps n (decl.after s) :=
  (local_decl (f := id)).after

theorem steps_expr (s : Parser) : ∃ n, s.Steps n (expr.after s) :=
  (local_expr (f := id)).after

theorem steps_type (s : Parser) : ∃ n, s.Steps n (type.after s) :=
  (local_type (f := id)).after

end Parse

namespace Parser

/-- The parser has come to `s` by calls on the text that `reads` deliver. -/
inductive Reached (path : String) (reads : List Read) : Parser → Prop where
  | start : Reached path reads (.ofReads path reads)
  | file {s : Parser} (h : Reached path reads s) : Reached path reads (Parse.file.after s)
  | decl {s : Parser} (h : Reached path reads s) : Reached path reads (Parse.decl.after s)
  | expr {s : Parser} (h : Reached path reads s) : Reached path reads (Parse.expr.after s)
  | type {s : Parser} (h : Reached path reads s) : Reached path reads (Parse.type.after s)

variable {path : String} {reads : List Read} {s t : Parser} {es : List Entry} {d : Diagnostic}

theorem Reached.steps (h : Reached path reads s) : ∃ n, (ofReads path reads).Steps n s := by
  have hcall : ∀ {s t : Parser}, (∃ n, (ofReads path reads).Steps n s) → (∃ n, s.Steps n t) →
      ∃ n, (ofReads path reads).Steps n t := by
    rintro s t ⟨m, hm⟩ ⟨n, hn⟩
    exact ⟨m + n, hm.trans hn⟩
  induction h with
  | start => exact ⟨0, .refl _⟩
  | file h ih => exact hcall ih (Parse.steps_file _)
  | decl h ih => exact hcall ih (Parse.steps_decl _)
  | expr h ih => exact hcall ih (Parse.steps_expr _)
  | type h ih => exact hcall ih (Parse.steps_type _)

theorem Steps.entries {n : Nat} (h : s.Steps n t) :
    t.tokens.entries = s.tokens.entries.drop n := by
  rw [h.reached, tokens_passBy]

/-- A parser has reported what comes with its current token. -/
def Told (s : Parser) : Prop :=
  ∀ d ∈ s.current.reports, d ∈ s.log.toList

theorem told_ofReads (path : String) (reads : List Read) : (ofReads path reads).Told := by
  intro d hd
  have hlog : (ofReads path reads).log.toList = (Lexer.ofText (.ofReads reads)).log.toList ++
      (ofReads path reads).current.reports := Array.toList_appendList
  rw [hlog]
  exact List.mem_append_right _ hd

theorem mem_log_passBy {n : Nat} (hn : n ≤ s.left) (hd : d ∈ s.log.toList) :
    d ∈ (s.passBy n).log.toList := by
  induction n with
  | zero => exact hd
  | succ n ih =>
    have hleft := s.left_passBy n
    rw [passBy_succ, log_pass (by omega)]
    exact List.mem_append_left _ (ih (by omega))

theorem Told.passBy (h : s.Told) {n : Nat} (hn : n ≤ s.left) : (s.passBy n).Told := by
  cases n with
  | zero => exact h
  | succ n =>
    have hleft := s.left_passBy n
    intro d hd
    rw [passBy_succ] at hd
    rw [passBy_succ, log_pass (by omega)]
    exact List.mem_append_right _ (List.mem_append_left _ hd)

/-- What is reported of a token has been reported once it is taken. -/
theorem Told.taken (h : s.Told) {i n : Nat} (hi : i < n) (hn : n ≤ s.left) :
    (∀ d ∈ (s.tokens.entry i).reports, d ∈ (s.passBy n).log.toList) ∧
    ∀ p ∈ (s.tokens.entry i).excess?, ⟨(s.tokens.entry i).pos, p⟩ ∈ (s.passBy n).log.toList := by
  have hleft := s.left_passBy i
  have hleft' := s.left_passBy (i + 1)
  have hsplit : s.passBy n = (s.passBy (i + 1)).passBy (n - (i + 1)) := by
    rw [← passBy_add, Nat.add_sub_cancel' hi]
  have hlog := log_pass (s := s.passBy i) (by omega)
  rw [← passBy_succ] at hlog
  have hfirst : ∀ d ∈ (s.passBy (i + 1)).log.toList, d ∈ (s.passBy n).log.toList := by
    intro d hd
    rw [hsplit]
    exact mem_log_passBy (by omega) hd
  rw [← current_passBy]
  constructor
  · intro d hd
    refine hfirst d ?_
    rw [hlog]
    exact List.mem_append_left _ (h.passBy (by omega) d hd)
  · intro p hp
    refine hfirst _ ?_
    rw [hlog]
    refine List.mem_append_right _ (List.mem_append_right _ ?_)
    exact List.mem_map.2 ⟨p, Option.mem_toList.2 hp, rfl⟩

theorem Told.passes (hs : s.Told) (h : Passes s es t) {e : Entry} (he : e ∈ es) :
    (∀ d ∈ e.reports, d ∈ t.log.toList) ∧ ∀ p ∈ e.excess?, ⟨e.pos, p⟩ ∈ t.log.toList := by
  obtain ⟨i, hi, rfl⟩ := List.mem_iff_getElem.1 he
  have hentry : s.tokens.entry i = es[i] := by
    unfold Tokens.entry
    rw [h.entries, List.getD_eq_getElem?_getD, List.getElem?_append_left hi,
      List.getElem?_eq_getElem hi, Option.getD_some]
  have hleft := h.left
  rw [h.reached, ← hentry]
  exact hs.taken hi (by omega)

/-- Wherever a parser has come to, what it passes next are tokens of the text, and what is
reported of them is in its log. -/
theorem Reached.passes (hs : Reached path reads s) (h : Passes s es t) :
    s.path = path ∧ s.Told ∧ InOrder es ∧ es ⊆ (Tokens.ofText (.ofReads reads)).entries := by
  obtain ⟨n, hn⟩ := hs.steps
  have hsub : es.Sublist (Tokens.ofText (.ofReads reads)).entries := by
    have hfront : es.Sublist s.tokens.entries := by
      rw [h.entries]
      exact List.sublist_append_left _ _
    rw [hn.entries] at hfront
    exact hfront.trans (List.drop_sublist _ _)
  have hleft := hn.left
  refine ⟨?_, ?_, (Tokens.inOrder _).sublist hsub, hsub.subset⟩
  · rw [hn.reached, path_passBy]
    rfl
  · rw [hn.reached]
    exact (told_ofReads path reads).passBy (by omega)

end Parser
end FrontEnd
