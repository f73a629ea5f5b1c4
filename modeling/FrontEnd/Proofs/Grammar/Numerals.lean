import FrontEnd.Proofs.Grammar.Literals
import FrontEnd.Proofs.Lexing.Newlines
import FrontEnd.Proofs.Literal.Grammar

/-!
# Numerals among tokens

Of a number one fault at most is reported, and none exactly if its text is in the language of
its kind.  A digit that is named is the first that the base does not have, and the report shows
where the source stood on it.
-/

namespace FrontEnd

namespace Problem

def isNumeral : Problem → Bool
  | numeral _ => true
  | _ => false

theorem isNumeral_of_isReading {p : Problem} (h : p.isReading = true) : p.isNumeral = false := by
  cases p <;> first | rfl | cases h

theorem isNumeral_of_isInvalidCharacter {p : Problem} (h : p.isInvalidCharacter = true) :
    p.isNumeral = false := by
  cases p <;> first | rfl | cases h

end Problem

namespace Entry

def faults (e : Entry) : List Diagnostic :=
  e.reports.filter (·.problem.isNumeral)

/-- The token is the numeral `n`, which its text is read as, and the fault of that is all that
is reported of a number. -/
structure Reads (e : Entry) (n : Numeral) : Prop where
  formed : n.Formed
  kind : e.token.kind = n.kind
  runes : e.token.lexeme.toList = n.text
  read : Numeral.read n.text = (n, [])
  faults : e.faults = (n.fault?.map fun f => ⟨e.pos.right f.offset, .numeral f.defect⟩).toList

namespace Reads

variable {e : Entry} {n : Numeral}

theorem length_faults (h : e.Reads n) : e.faults.length ≤ 1 := by
  rw [h.faults]
  cases n.fault? with
  | none => exact Nat.zero_le 1
  | some f => exact Nat.le_refl 1

theorem faults_eq_nil (h : e.Reads n) : e.faults = [] ↔ n.fault? = none := by
  rw [h.faults, Option.toList_eq_nil_iff, Option.map_eq_none_iff]

theorem integer (h : e.Reads n) (hk : e.Is .integer) :
    e.faults = [] ↔ e.token.lexeme.toList ∈ Lexical.integer.matches' := by
  have hi := Numeral.kind_eq_integer (h.kind.symm.trans hk)
  rw [h.faults_eq_nil, h.runes]
  exact h.formed.integer_faultless_iff h.read hi

theorem float (h : e.Reads n) (hk : e.Is .float) :
    e.faults = [] ↔ e.token.lexeme.toList ∈ Lexical.float.matches' := by
  obtain ⟨him, hi⟩ := Numeral.kind_eq_float (h.kind.symm.trans hk)
  rw [h.faults_eq_nil, h.runes]
  exact h.formed.float_faultless_iff h.read hi him

theorem stray (h : e.Reads n) {d : Diagnostic} (hd : d ∈ e.faults) {digit : Char} {b : Base}
    (hp : d.problem = .numeral (.strayDigit digit b)) : e.Is .integer ∧
      b = (Lead.read e.token.lexeme.toList).base ∧
      ∃ before, Numeral.FirstStray b e.token.lexeme.toList before digit ∧
        d.pos = e.pos.right before.length := by
  rw [h.faults, Option.mem_toList] at hd
  obtain ⟨f, hf, rfl⟩ := Option.map_eq_some_iff.1 hd
  obtain ⟨hi, hb, before, hstray, hoffset⟩ := h.formed.firstStray hf (Problem.numeral.inj hp)
  obtain ⟨-, -, him⟩ := Numeral.isInteger_iff.1 hi
  rw [h.runes]
  refine ⟨?_, ?_, before, hstray, by rw [hoffset]⟩
  · rw [Is, h.kind, Numeral.kind, him, hi]
    rfl
  · rw [hb, h.formed.lead_read]
    rfl

end Reads
end Entry

namespace Lexer

variable {x : Lexer} {c : Char} {cs : List Char}

/-- What is reported of a token as a number is what is wrong within it. -/
theorem faults_next (h : x.Plain) :
    x.next.current.faults = (x.flaws.filter (·.2.problem.isNumeral)).map (·.2) := by
  have hgap : (gapReports x.passed x.pos x.gap).filter (·.2.problem.isNumeral) = [] :=
    List.filter_eq_nil_iff.2 fun r hr => by
      rw [Problem.isNumeral_of_isInvalidCharacter (refused_gapReports _ _ _ r hr)]
      exact Bool.false_ne_true
  unfold Entry.faults
  rw [filter_reports_next h fun _ => Problem.isNumeral_of_isReading, hgap, List.nil_append]

theorem reads_next (h : x.Plain) (hc : c.isDigit = true) (hlex : x.lexeme = .number (c :: cs)) :
    x.next.current.Reads (Numeral.read (c :: cs)).1 := by
  have hwrites := writes_next hc hlex
  refine ⟨hwrites.formed, hwrites.kind, ?_, ?_, ?_⟩
  · rw [hwrites.lexeme, String.toList_ofList]
  · have hread := Numeral.read_alike (show Alike (Numeral.read (c :: cs)).2 [] from Or.inr nofun)
    rwa [List.append_nil] at hread
  · rw [faults_next h, flaws, hlex, Lexeme.number]
    cases (Numeral.read (c :: cs)).1.fault? <;> rfl

theorem number_of_faults (h : x.Plain) (hne : x.next.current.faults ≠ []) :
    ∃ c cs, c.isDigit = true ∧ x.lexeme = .number (c :: cs) := by
  rw [faults_next h, flaws] at hne
  rcases x.ahead_cases with ha | ⟨c, cs, ha, hc⟩
  · rw [lexeme, ha] at hne
    exact absurd rfl hne
  · rw [lexeme_eq_scan ha] at hne ⊢
    rcases Lexeme.scan_cases hc cs with ⟨-, hs⟩ | ⟨hd, hs⟩ | ⟨k, -, hs⟩ | ⟨-, hs⟩
    · have hflaw : ∀ f ∈ (Lexeme.ident c cs).flaw, f.problem.isNumeral = false := by
        intro f hf
        unfold Lexeme.ident at hf
        dsimp only at hf
        split at hf <;> cases hf
        rfl
      rw [hs] at hne
      refine absurd (List.map_eq_nil_iff.2 (List.filter_eq_nil_iff.2 fun r hr => ?_)) hne
      obtain ⟨f, hf, rfl⟩ := List.mem_map.1 hr
      rw [hflaw f (Option.mem_toList.1 hf)]
      exact Bool.false_ne_true
    · exact ⟨c, cs, hd, hs⟩
    · rw [hs] at hne
      exact absurd rfl hne
    · rw [hs] at hne
      exact absurd rfl hne

end Lexer

theorem utf8ByteSize_ofList {cs : List Char} (h : ∀ c ∈ cs, c.utf8Size = 1) :
    (String.ofList cs).utf8ByteSize = cs.length := by
  induction cs with
  | nil => rfl
  | cons c cs ih =>
    obtain ⟨hc, hcs⟩ := List.forall_mem_cons.1 h
    rw [String.ofList_cons, String.utf8ByteSize_append, String.utf8ByteSize_singleton, hc, ih hcs,
      List.length_cons, Nat.add_comm]

theorem utf8ByteSize_lt {word : String} {before behind : List Char} {c : Char}
    (h : word.toList = before ++ c :: behind) :
    (String.ofList before).utf8ByteSize < word.utf8ByteSize := by
  have hc := c.utf8Size_pos
  rw [← String.ofList_toList (s := word), h, String.ofList_append, String.ofList_cons,
    String.utf8ByteSize_append, String.utf8ByteSize_append, String.utf8ByteSize_singleton]
  omega

/-- Where the source stands once it has passed the front of the text. -/
theorem Source.pos_of_front {reads : List Read} {front rest : List Char}
    (h : (Text.ofReads reads).runes = front ++ rest) :
    ((Source.ofReads reads).advanceBy front.length).pos = Position.start.afterAll front := by
  have hle : front.length ≤ (Text.ofReads reads).runes.length := by
    rw [h, List.length_append]
    exact Nat.le_add_right _ _
  have hpos := Text.pos_advanceBy 0 (Source.ofReads reads) hle
  change _ = (Source.ofReads reads).pos.afterAll ((Text.ofReads reads).runes.take _) at hpos
  rw [hpos, Source.pos_ofReads, h, List.take_left]

/-- The runes of the token `e` are those with index `k` and so on, and `d` is shown where the
source stood behind the runes `before` of it.  The columns from the token to there are the bytes
of these runes, which are fewer than those of the token. -/
structure Source.Locates (s : Source) (e : Entry) (before : List Char) (d : Diagnostic)
    (k : Nat) : Prop where
  rune : ∀ i < e.token.lexeme.length, (s.advanceBy (k + i)).rune = e.token.lexeme.toList[i]?
  pos : (s.advanceBy k).pos = e.pos
  shown : (s.advanceBy (k + before.length)).pos = d.pos
  le : e.pos.col ≤ d.pos.col
  sub : d.pos.col - e.pos.col = (String.ofList before).utf8ByteSize
  lt : (String.ofList before).utf8ByteSize < e.token.lexeme.utf8ByteSize

namespace Lexer

variable {x : Lexer} {c : Char}

/-- Columns count bytes where all runes are of one byte and none is a newline. -/
theorem StandsIn.locates {reads : List Read} (h : x.StandsIn (.ofReads reads))
    {before behind : List Char} (hword : x.next.current.token.lexeme.toList = before ++ c :: behind)
    (hnarrow : ∀ c ∈ before, c.utf8Size = 1) (hline : '\n' ∉ before) {d : Diagnostic}
    (hd : d.pos = x.next.current.pos.right before.length) :
    ∃ k, (Source.ofReads reads).Locates x.next.current before d k := by
  obtain ⟨front, rest, hruns, hfront⟩ := h.shows
  have hbefore : (Text.ofReads reads).runes = front ++ before ++ (c :: behind ++ rest) := by
    rw [hruns, hword]
    simp only [List.append_assoc]
  refine ⟨front.length, fun i hi => ?_, ?_, ?_, ?_, ?_, utf8ByteSize_lt hword⟩
  · rw [← Text.runes_eq 0]
    change (Text.ofReads reads).runes[_]? = _
    rw [hruns, List.getElem?_append_right (Nat.le_add_right _ _), Nat.add_sub_cancel_left,
      List.getElem?_append_left (by rwa [String.length_toList])]
  · rw [Source.pos_of_front hruns, hfront]
  · rw [← List.length_append, Source.pos_of_front hbefore, Position.afterAll_append, hfront,
      Position.afterAll_eq_right hline, hd]
  · rw [hd]
    exact Nat.le_add_right _ _
  · rw [hd, utf8ByteSize_ofList hnarrow]
    exact Nat.add_sub_cancel_left _ _

theorem newline_not_mem (hk : x.next.current.Is .integer) :
    '\n' ∉ x.next.current.token.lexeme.toList := by
  intro hmem
  obtain ⟨ds, hahead⟩ := newline_mem_iff.1 hmem
  rw [Entry.Is, token_of_newline hahead] at hk
  cases hk

end Lexer

namespace Tokens

/-- Every literal among the tokens is read as a numeral. -/
theorem exists_reads (reads : List Read) : ∀ e ∈ (ofText (.ofReads reads)).entries,
    e.Is .integer ∨ e.Is .float → ∃ m, e.Reads m := by
  intro e he hk
  obtain ⟨n, rfl⟩ := exists_nextBy _ e he
  obtain ⟨c, cs, hc, hlex⟩ := Lexer.number_of_literal hk
  exact ⟨_, Lexer.reads_next ((Lexer.plain_ofReads reads).nextBy n) hc hlex⟩

/-- A number has at most one fault, and none exactly if its text is in the language of its kind.
A digit that is named is the first of the text that the base does not have, and it is shown
where it stands. -/
theorem faults_ofReads (reads : List Read) : ∀ e ∈ (ofText (.ofReads reads)).entries,
    (e.Is .integer → e.faults.length ≤ 1 ∧
      (e.faults = [] ↔ e.token.lexeme.toList ∈ Lexical.integer.matches')) ∧
    (e.Is .float → e.faults.length ≤ 1 ∧
      (e.faults = [] ↔ e.token.lexeme.toList ∈ Lexical.float.matches')) ∧
    ∀ d ∈ e.reports, ∀ digit b, d.problem = .numeral (.strayDigit digit b) →
      e.Is .integer ∧ b = (Lead.read e.token.lexeme.toList).base ∧
      ∃ before k, Numeral.FirstStray b e.token.lexeme.toList before digit ∧
        (Source.ofReads reads).Locates e before d k := by
  intro e he
  have hliteral := exists_reads reads e he
  obtain ⟨n, rfl⟩ := exists_nextBy _ e he
  have hplain := (Lexer.plain_ofReads reads).nextBy n
  have hstands := (Lexer.standsIn_ofText (.ofReads reads)).nextBy n
  generalize (Lexer.ofText (.ofReads reads)).nextBy n = x at he hliteral hplain hstands ⊢
  refine ⟨fun hk => ?_, fun hk => ?_, fun d hd digit b hp => ?_⟩
  · obtain ⟨m, hm⟩ := hliteral (Or.inl hk)
    exact ⟨hm.length_faults, hm.integer hk⟩
  · obtain ⟨m, hm⟩ := hliteral (Or.inr hk)
    exact ⟨hm.length_faults, hm.float hk⟩
  · have hfault : d ∈ x.next.current.faults := List.mem_filter.2 ⟨hd, by rw [hp]; rfl⟩
    obtain ⟨c, cs, hc, hlex⟩ := Lexer.number_of_faults hplain (List.ne_nil_of_mem hfault)
    obtain ⟨hk, hb, before, hstray, hpos⟩ := (Lexer.reads_next hplain hc hlex).stray hfault hp
    obtain ⟨behind, hword⟩ := hstray.text_eq
    have hline : '\n' ∉ before := by
      intro hmem
      refine Lexer.newline_not_mem hk ?_
      rw [hword]
      exact List.mem_append_left _ hmem
    obtain ⟨k, hk'⟩ := hstands.locates hword hstray.narrow hline hpos
    exact ⟨hk, hb, before, k, hstray, hk'⟩

/-- A number in base two with a digit of base ten. -/
theorem faults_ofReads_binary :
    ∃ e ∈ (ofText (.ofReads [.bytes "\t0b1_02".toUTF8])).entries, ∃ d : Diagnostic,
      e.token = ⟨.integer, "0b1_02"⟩ ∧ d = ⟨⟨1, 7⟩, .numeral (.strayDigit '2' .binary)⟩ ∧
      e.faults = [d] ∧ e.token.lexeme.toList ∉ Lexical.integer.matches' ∧
      ∃ before k, Numeral.FirstStray .binary e.token.lexeme.toList before '2' ∧
        (Source.ofReads [.bytes "\t0b1_02".toUTF8]).Locates e before d k := by
  have hplain := Lexer.plain_ofReads [.bytes "\t0b1_02".toUTF8]
  have htoken : (Lexer.ofText (.ofReads [.bytes "\t0b1_02".toUTF8])).next.current.token =
      ⟨.integer, "0b1_02"⟩ := by
    decide +kernel
  have hmore : (Lexer.ofText (.ofReads [.bytes "\t0b1_02".toUTF8])).next.current.token.kind ≠
      .eof := by
    rw [htoken]
    nofun
  have hfaults : (Lexer.ofText (.ofReads [.bytes "\t0b1_02".toUTF8])).next.current.faults =
      [⟨⟨1, 7⟩, .numeral (.strayDigit '2' .binary)⟩] := by
    rw [Lexer.faults_next hplain]
    decide +kernel
  have he := (ofLexer_more hmore).1 ▸ List.mem_cons_self
  obtain ⟨hinteger, -, hstray⟩ := faults_ofReads _ _ he
  have hd := (List.mem_filter.1 (hfaults ▸ List.mem_singleton_self _)).1
  have hsilent := (hinteger (congrArg Token.kind htoken)).2
  rw [hfaults] at hsilent
  exact ⟨_, he, _, htoken, rfl, hfaults, fun hmem => List.cons_ne_nil _ _ (hsilent.2 hmem),
    (hstray _ hd _ _ rfl).2.2⟩

end Tokens

end FrontEnd
