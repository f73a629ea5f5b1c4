import FrontEnd.Proofs.Grammar.Calls
import FrontEnd.Proofs.Grammar.EarliestError
import FrontEnd.Proofs.Lexing.Failure

/-!
# A file that breaks off

A read that fails is an early end of the input.  `File.ofReads_broken` says this of lexers
and of files: tokens, trees, locations and errors are those of the bytes in front of the
failure, and so are the reports, but for one of the failure, which is there if the lexer
has come to the place where the read was tried.
-/

namespace FrontEnd

open Utf8

theorem Entry.encoding_excess {e : Entry} {p : Problem} (h : e.excess? = some p) :
    p.isEncoding = false := by
  have hliteral : ∀ {α : Type} {value : String → Except LiteralError α} {tooLarge lexeme},
      Literal.excess? value tooLarge lexeme = some p → p = tooLarge lexeme := by
    intro α value tooLarge lexeme hp
    unfold Literal.excess? at hp
    split at hp <;> cases hp
    rfl
  unfold excess? at h
  split at h
  · rw [hliteral h]
    rfl
  · rw [hliteral h]
    rfl
  · cases h

namespace Parser

variable {k n : Nat} {d : Diagnostic} {s s' : Parser} {x x' : Lexer}

/-- Parsers on the first tokens of texts that differ in one report. -/
structure Parallel (k : Nat) (d : Diagnostic) (x x' : Lexer) (s s' : Parser) : Prop where
  lexers : x.Parallel k d x'
  tokens : s.tokens = .ofLexer x
  tokens' : s'.tokens = .ofLexer x'
  path : s'.path = s.path
  log : s.log.toList = x.next.log.toList
  log' : s'.log.toList = x'.next.log.toList

namespace Parallel

theorem left (h : Parallel k d x x' s s') : s'.left = s.left := by
  have hle : ∀ n, n ≤ s'.left ↔ n ≤ s.left := by
    intro n
    unfold Parser.left
    rw [h.tokens, h.tokens', Tokens.le_length_iff, Tokens.le_length_iff]
    refine forall_congr' fun i => forall_congr' fun _ => ?_
    rw [(h.lexers.nextBy (i + 1)).token]
  exact Nat.le_antisymm ((hle _).1 (Nat.le_refl _)) ((hle _).2 (Nat.le_refl _))

/-- What the one parser stands on past `n` tokens is what the other one does, but for the
reports. -/
theorem current (h : Parallel k d x x' s s') (hn : n ≤ s.left) :
    (s.passBy n).current = (x.nextBy (n + 1)).current ∧
      (s'.passBy n).current = (x'.nextBy (n + 1)).current := by
  rw [current_ofLexer h.tokens hn, current_ofLexer h.tokens' (h.left ▸ hn), Lexer.nextBy_succ,
    Lexer.nextBy_succ]
  exact ⟨rfl, rfl⟩

theorem like (h : Parallel k d x x' s s') (hn : n ≤ s.left) :
    Like id (s.passBy n) (s'.passBy n) := by
  obtain ⟨hc, hc'⟩ := h.current hn
  have hnext := h.lexers.nextBy (n + 1)
  refine ⟨?_, ?_⟩
  · rw [hc, hc', hnext.token]
  · unfold here
    rw [hc, hc', hnext.pos, path_passBy, path_passBy, h.path]
    rfl

theorem mirrors (h : Parallel k d x x' s s') (hn : n ≤ s.left + 1) : s.Mirrors id n s' :=
  fun _ hi => h.like (by omega)

/-- Past some tokens the one more report has been made if the lexer, which has scanned the
token behind them, has come to it. -/
theorem amends (h : Parallel k d x x' s s') (hn : n ≤ s.left) :
    d.Amends false (decide (k ≤ (x.nextBy (n + 1)).passed)) (s.passBy n).log.toList
      (s'.passBy n).log.toList := by
  induction n with
  | zero =>
    show d.Amends false _ s.log.toList s'.log.toList
    rw [h.log, h.log']
    exact h.lexers.next.1.log
  | succ n ih =>
    have hleft := s.left_passBy n
    have hleft' := s'.left_passBy n
    have hsame := h.left
    obtain ⟨hc, hc'⟩ := h.current (Nat.le_of_succ_le hn)
    obtain ⟨hd, hd'⟩ := h.current hn
    have hnext := h.lexers.nextBy (n + 1)
    have hreports := (h.lexers.nextBy (n + 1)).next.2
    rw [← Lexer.nextBy_succ, ← Lexer.nextBy_succ] at hreports
    have hexcesses :
        (x'.nextBy (n + 1)).current.excesses = (x.nextBy (n + 1)).current.excesses := by
      unfold Entry.excesses Entry.excess?
      rw [hnext.token, hnext.pos]
    rw [passBy_succ, passBy_succ, log_pass (by omega), log_pass (by omega), ← passBy_succ,
      ← passBy_succ, hc, hc', hd, hd', hexcesses]
    refine (ih (Nat.le_of_succ_le hn)).append (hreports.append (.plain ?_))
    refine List.forall_mem_map.2 fun p hp => ?_
    exact Entry.encoding_excess (Option.mem_toList.1 hp)

theorem decls (h : Parallel k d x x' s s') :
    ∃ n, s.Steps n ((Parse.many Parse.decl?).after s) ∧
      ((∃ ds, Parse.many Parse.decl? s = .ok ds (s.passBy n) ∧
          Parse.many Parse.decl? s' = .ok ds (s'.passBy n)) ∨
        ∃ e, Parse.many Parse.decl? s = .error e (s.passBy n) ∧
          Parse.many Parse.decl? s' = .error e (s'.passBy n)) := by
  have hlocal := (Parse.local_decls (f := id) (s := s)).still_list Decl.relocate_id
  unfold Parse.after
  cases hd : Parse.many Parse.decl? s with
  | ok ds t =>
    obtain ⟨n, hsteps, hall⟩ := hlocal.ok hd
    obtain ⟨rfl, hleft⟩ := hsteps
    have hn : n ≤ s.left := by omega
    exact ⟨n, ⟨rfl, hleft⟩, Or.inl ⟨ds, rfl,
      hall s' (h.mirrors (Nat.le_succ_of_le hn)) (Or.inl (h.like hn))⟩⟩
  | error e t =>
    obtain ⟨-, n, hsteps, hall⟩ := hlocal.error hd
    obtain ⟨rfl, hleft⟩ := hsteps
    have hs' := hall s' (h.mirrors (by omega))
    rw [SyntaxError.relocate_id] at hs'
    exact ⟨n, ⟨rfl, hleft⟩, Or.inr ⟨e, rfl, hs'⟩⟩

end Parallel

theorem parallel_ofText (path : String) {t t' : Text}
    (h : (Lexer.ofText t).Parallel k d (Lexer.ofText t')) :
    Parallel k d (Lexer.ofText t) (Lexer.ofText t') (ofText path t) (ofText path t') :=
  ⟨h, rfl, rfl, rfl, log_ofText path t, log_ofText path t'⟩

end Parser

/-- Files of texts that differ in one report are the same, and so are their errors. -/
theorem File.ofReads_parallel {path : String} {reads reads' : List Read} {k : Nat}
    {d : Diagnostic} (h : (Lexer.ofText (.ofReads reads)).Parallel k d
      (Lexer.ofText (.ofReads reads'))) :
    (File.ofReads path reads').1 = (File.ofReads path reads).1 ∧
      ∃ n, (Parser.ofReads path reads).Steps n (Parse.file.after (.ofReads path reads)) ∧
        d.Amends false (decide (k ≤ ((Lexer.ofText (.ofReads reads)).nextBy (n + 1)).passed))
          (File.ofReads path reads).2 (File.ofReads path reads').2 := by
  have hparsers : Parser.Parallel k d _ _ (.ofReads path reads) (.ofReads path reads') :=
    Parser.parallel_ofText path h
  obtain ⟨n, hsteps, hdecls⟩ := hparsers.decls
  have hn : n ≤ (Parser.ofReads path reads).left := by
    have hleft := hsteps.left
    omega
  have hamends := hparsers.amends hn
  rw [Parse.after_file]
  rcases hdecls with ⟨ds, hd, hd'⟩ | ⟨e, hd, hd'⟩
  · rw [Parse.ofReads_ok hd, Parse.ofReads_ok hd']
    refine ⟨?_, n, hsteps, hamends⟩
    have hfirst := (hparsers.like (Nat.zero_le _)).here
    have hlast := (hparsers.like hn).here
    exact congrArg Except.ok (congrArg₂ (FrontEnd.File.mk none ds) hlast hfirst)
  · rw [Parse.ofReads_error hd, Parse.ofReads_error hd']
    exact ⟨rfl, n, hsteps, hamends⟩

/-- A read that fails behind some bytes is an early end of them.  The tokens, the file or its
error, and all locations are the same, and so is what is reported, in the same order, but
for the failure.  That stands where first fewer bytes are left than the longest character
takes, comes before what decoding reports of that rune, and is there if so many runes have
been passed by the lexer, which has scanned the token that the parser stands on.  Whatever
is done with the source, what the reads behind the failure would have brought is not
read. -/
theorem File.ofReads_broken {reason : String} {later reads reads' : List Read}
    {bytes : ByteArray} (h : Delivers reads bytes) (h' : Breaks reason later reads' bytes)
    (path : String) :
    let ps := body (pieces bytes 0)
    let k := runsOut ps
    let d : Diagnostic :=
      ⟨Position.start.afterAll ((ps.take k).map Piece.rune), .readFailure reason⟩
    let x := Lexer.ofText (.ofReads reads)
    let x' := Lexer.ofText (.ofReads reads')
    (span (ps.drop k) < Feed.lookahead ∧ ∀ j < k, Feed.lookahead ≤ span (ps.drop j)) ∧
    (∀ n, (x'.nextBy n).current =
        { (x.nextBy n).current with reports := (x'.nextBy n).current.reports } ∧
      d.Amends false (decide (k ≤ (x.nextBy n).passed)) (x.nextBy n).log.toList
        (x'.nextBy n).log.toList) ∧
    (File.ofReads path reads').1 = (File.ofReads path reads).1 ∧
    (∃ n, (Parser.ofReads path reads).Steps n (Parse.file.after (.ofReads path reads)) ∧
      d.Amends false (decide (k ≤ (x.nextBy (n + 1)).passed)) (File.ofReads path reads).2
        (File.ofReads path reads').2) ∧
    ∀ os, let s := (Source.ofReads reads').run os
      ((∃ e ∈ s.log.toList, e.problem = .readFailure reason) → s.feed.reads = later) ∧
        ((∀ e ∈ s.log.toList, e.problem ≠ .readFailure reason) →
          ∃ front, s.feed.reads = front ++ .failed reason :: later) := by
  intro ps k d x x'
  have hlexers : x.Parallel k d x' := h'.parallel h
  obtain ⟨hresult, hlog⟩ := File.ofReads_parallel hlexers
  refine ⟨runsOut_spec ps, fun n => ?_, hresult, hlog, Source.reads_run h'⟩
  have hn := hlexers.nextBy n
  exact ⟨congrArg Lexer.current hn.same, hn.log⟩

/-- A read that fails within a character, and what it would have brought after that. -/
theorem File.ofReads_broken_truncated :
    let bytes := "f = ".toUTF8 ++ ((⟨#[0x78, 0xE0]⟩ : ByteArray) ++ .empty)
    let reads := [.bytes "f = ".toUTF8, .interrupted, .bytes ⟨#[0x78, 0xE0]⟩, .failed "gone",
      .bytes " y".toUTF8]
    (File.ofReads "" reads).1 = (File.ofReads "" [.bytes bytes]).1 ∧
      ∃ front back, (File.ofReads "" [.bytes bytes]).2 = front ++ back ∧
        (File.ofReads "" reads).2 = front ++ ⟨⟨1, 4⟩, .readFailure "gone"⟩ :: back := by
  intro bytes reads
  have hbreaks : Breaks "gone" [.bytes " y".toUTF8] reads bytes :=
    .chunk (by decide) (.interrupted (.chunk (by decide) .failed))
  obtain ⟨-, -, hresult, ⟨n, hsteps, hlog⟩, -⟩ := File.ofReads_broken (.single bytes) hbreaks ""
  have hn : n = 3 := by
    have hleft := hsteps.left
    have hstart : (Parser.ofReads "" [.bytes bytes]).left = 3 := by decide +kernel
    have hend : (Parse.file.after (.ofReads "" [.bytes bytes])).left = 0 := by decide +kernel
    omega
  have hk : runsOut (body (pieces bytes 0)) = 3 := by decide +kernel
  have hpassed : ((Lexer.ofText (.ofReads [.bytes bytes])).nextBy (3 + 1)).passed = 6 := by
    decide +kernel
  have hpos : Position.start.afterAll (((body (pieces bytes 0)).take 3).map Piece.rune) =
      ⟨1, 4⟩ := by
    decide +kernel
  rw [hn, hk, hpassed, hpos] at hlog
  refine ⟨hresult, ?_⟩
  generalize (File.ofReads "" [.bytes bytes]).2 = log at hlog
  generalize (File.ofReads "" reads).2 = log' at hlog
  cases hlog with
  | here hf hb => exact ⟨_, _, rfl, rfl⟩

end FrontEnd
