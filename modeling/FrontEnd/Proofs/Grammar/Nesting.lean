import FrontEnd.Proofs.Grammar.Calls
import FrontEnd.Proofs.Grammar.EarliestError
import FrontEnd.Proofs.Tree.Shape

/-!
# Parentheses and nesting

The lexer counts open parentheses one token ahead of the parser and lets a closing one pass
when none is open.  Every phrase of the grammar closes just the parentheses that it opens, so
a parser whose calls have all succeeded has left the count at zero, and the only parenthesis
that can be open is the token that it stands on.  A declaration ends with a token that can
end a line, so the first newline behind it is a token.
-/

namespace FrontEnd

/-- The parenthesis that is open where none was is the token itself. -/
theorem depthAfter_zero (k : TokenKind) :
    depthAfter 0 k = if k = .parenLeft then 1 else 0 := by
  cases k <;> rfl

/-! ## Phrases -/

/-- Behind `depth` open parentheses no token of `es` closes one that is not open. -/
def Matched (depth : Nat) : List Entry → Prop
  | [] => True
  | e :: es => (e.Is .parenRight → 0 < depth) ∧ Matched (depthAfter depth e.token.kind) es

section Matched

variable {depth : Nat} {e l o r : Entry} {es fs : List Entry} {path : String} {ph : Phrase}

theorem matched_append :
    Matched depth (es ++ fs) ↔ Matched depth es ∧ Matched (depthBehind depth es) fs := by
  induction es generalizing depth with
  | nil => exact (and_iff_right trivial).symm
  | cons e es ih =>
    rw [List.cons_append, Matched, Matched, ih, and_assoc, depthBehind_cons]

/-- A token that is no parenthesis may stand anywhere. -/
theorem Matched.token {k : TokenKind} (he : e.Is k) (hk : k ∉ [.parenLeft, .parenRight])
    (h : Matched depth es) : Matched depth (e :: es) := by
  have hdepth : depthAfter depth e.token.kind = depth := by
    rw [he]
    cases k <;> first | rfl | exact absurd (by decide) hk
  refine ⟨fun hr => absurd ?_ hk, hdepth.symm ▸ h⟩
  rw [← he, hr]
  decide

/-- What stands in parentheses finds one more of them open. -/
theorem Matched.nested (hl : l.Is .parenLeft) (h : Matched (depth + 1) es)
    (hes : depthBehind (depth + 1) es = depth + 1) : Matched depth (l :: (es ++ [r])) := by
  refine ⟨fun hr => absurd (hl.symm.trans hr) (by decide), ?_⟩
  rw [hl, matched_append]
  exact ⟨h, fun _ => hes.symm ▸ Nat.succ_pos depth, trivial⟩

theorem Matched.operator (hl : l.Is .parenLeft) (ho : o.IsOperator) :
    Matched depth [l, o, r] := by
  show Matched depth (l :: ([o] ++ [r]))
  refine .nested hl ?_ ?_
  · rcases ho with ho | ho <;> exact .token ho (by decide) trivial
  · rcases ho with ho | ho <;> simp [depthBehind, ho]

theorem Separators.matched_append (h : Separators es) (hf : Matched depth fs) :
    Matched depth (es ++ fs) := by
  induction es with
  | nil => exact hf
  | cons e es ih =>
    obtain ⟨he, hes⟩ := List.forall_mem_cons.1 h
    exact .token he (by decide) (ih hes)

theorem Separators.matched (h : Separators es) : Matched depth es := by
  rw [← List.append_nil es]
  exact h.matched_append trivial

/-- What follows a phrase finds the parentheses open that the phrase found. -/
theorem Derives.matched_append (h : Derives path ph es) (hm : Matched depth es)
    (hf : Matched depth fs) : Matched depth (es ++ fs) :=
  FrontEnd.matched_append.2 ⟨hm, (h.balanced depth).symm ▸ hf⟩

end Matched

/-- A phrase closes no parenthesis that it has not opened. -/
theorem Derives.matched {path : String} {ph : Phrase} {es : List Entry}
    (h : Derives path ph es) (depth : Nat) : Matched depth es := by
  induction h generalizing depth with
  | integer h | float h | argumentInteger h | argumentFloat h | patternInteger h
  | patternFloat h | headName h | argumentName h | typeArgumentName h | patternName h
  | declIdent h => exact .token h (by decide) trivial
  | application h ih | atomCall h ih | typeAtom h ih | declSignature h ih => exact ih depth
  | headOperator hl ho hr | argumentOperator hl ho hr | declOperator hl ho hr =>
    exact .operator hl ho
  | headNested hl h hr ih | argumentNested hl h hr ih | typeArgumentNested hl h hr ih
  | atomNested hl h hr ih | patternCall hl h hr ih =>
    exact .nested hl (ih _) (h.balanced _)
  | noArguments | noTypeArguments | noPatterns | noNames => trivial
  | moreArguments h hs ih ihs | moreTypeArguments h hs ih ihs | morePatterns h hs ih ihs
  | call h hs ih ihs => exact h.matched_append (ih depth) (ihs depth)
  | typeCall h hs ihs | moreNames h hs ihs => exact .token h (by decide) (ihs depth)
  | enumeration hw h hb ih | sealed hw h hb ih => exact .token hw (by decide) (ih depth)
  | arrow ht ha hu iht ihu =>
    exact ht.matched_append (iht depth) (.token ha (by decide) (ihu depth))
  | @context l c r a inner shared result ns es fs gs hl hi hn hc hs hr ha hu ihi ihs ihu =>
    -- Up to the closing parenthesis this is like a phrase in parentheses.
    have hinner : ∀ depth, depthBehind depth (es ++ c :: fs) = depth := by
      simp [depthBehind_append, depthBehind_cons, hc, hi.balanced, hs.balanced, depthAfter]
    have hnames : Matched (depth + 1) (es ++ c :: fs) :=
      hi.matched_append (ihi _) (.token hc (by decide) (ihs _))
    have hresult : Matched depth (a :: gs) :=
      .token (congrArg Token.kind ha) (by decide) (ihu depth)
    rw [show l :: (es ++ c :: (fs ++ r :: a :: gs)) =
      l :: (es ++ c :: fs ++ [r]) ++ a :: gs by simp,
      FrontEnd.matched_append, depthBehind_nested hl hr hinner]
    exact ⟨.nested hl hnames (hinner _), hresult⟩
  | signature hn hc ht ihn iht =>
    exact hn.matched_append (ihn depth) (.token hc (by decide) (iht depth))
  | noMembers h | noDecls h => exact h.matched
  | moreMembers h hs hss ih ihs | moreDecls h hs hss ih ihs =>
    exact h.matched_append (hs.matched_append (ih depth) (ihs depth))
  | @block e l r ns ss loc es fs h hns hl hss hr ihns ihss =>
    have hright : Matched depth [r] := .token hr (by decide) trivial
    have hclose := hss.matched_append (ihss depth) hright
    exact .token h (by decide) (hns.matched_append (ihns depth) (.token hl (by decide) hclose))
  | function hn hp ha hx ihn ihp ihx =>
    have hbody := hp.matched_append (ihp depth) (.token ha (by decide) (ihx depth))
    exact hn.matched_append (ihn depth) hbody

/-! ## The last token -/

def EndsLine (es : List Entry) : Prop :=
  ∀ e, es.getLast? = some e → e.token.kind.endsLine = true

section EndsLine

variable {e : Entry} {es fs : List Entry}

theorem endsLine_nil : EndsLine [] := nofun

theorem EndsLine.single {k : TokenKind} (he : e.Is k) (hk : k.endsLine = true) :
    EndsLine [e] := by
  intro f hf
  have hf : e = f := Option.some.inj hf
  rw [← hf, he]
  exact hk

theorem EndsLine.append (hes : EndsLine es) (hfs : EndsLine fs) : EndsLine (es ++ fs) := by
  intro e h
  rw [List.getLast?_append, Option.or_eq_some_iff] at h
  exact h.elim (hfs e) fun h => hes e h.2

theorem EndsLine.suffix (hfs : EndsLine fs) (hne : fs ≠ []) (h : fs <:+ es) : EndsLine es := by
  obtain ⟨front, rfl⟩ := h
  intro f hf
  obtain ⟨e, he⟩ := Option.ne_none_iff_exists'.1 (mt List.getLast?_eq_none_iff.1 hne)
  rw [List.getLast?_append, he, Option.some_or, ← he] at hf
  exact hfs f hf

theorem EndsLine.close {k : TokenKind} (he : e.Is k) (hk : k.endsLine = true)
    (h : [e] <:+ es) : EndsLine es :=
  (EndsLine.single he hk).suffix (List.cons_ne_nil _ _) h

end EndsLine

/-- What is known of the last token of a phrase.  Only separators may stand behind what else
there is of a block or a file. -/
def Phrase.Ends : Phrase → List Entry → Prop
  | .members _, _ | .decls _, _ => True
  | _, es => EndsLine es

theorem Derives.ne_nil {path : String} {ph : Phrase} {es : List Entry}
    (h : Derives path ph es) (hph : (∃ x, ph = .expr x) ∨ ∃ t, ph = .type t) : es ≠ [] := by
  rcases hph with ⟨x, rfl⟩ | ⟨t, rfl⟩
  · obtain ⟨e, fs, rfl, -⟩ := h.begins
    exact List.cons_ne_nil e fs
  · obtain ⟨e, fs, rfl, -⟩ := h.begins
    exact List.cons_ne_nil e fs

theorem Derives.ends {path : String} {ph : Phrase} {es : List Entry}
    (h : Derives path ph es) : ph.Ends es := by
  induction h with
  | integer h | float h | argumentInteger h | argumentFloat h | patternInteger h
  | patternFloat h | headName h | argumentName h | typeArgumentName h | patternName h
  | declIdent h => exact .single h rfl
  | application h ih | atomCall h ih | typeAtom h ih | declSignature h ih => exact ih
  | @headOperator l o r hl ho hr | @argumentOperator l o r hl ho hr
  | @declOperator l o r hl ho hr => exact .close hr rfl ⟨[l, o], rfl⟩
  | @headNested l r x es hl h hr ih | @argumentNested l r x es hl h hr ih
  | @typeArgumentNested l r x es hl h hr ih | @atomNested l r x es hl h hr ih
  | @patternCall l r x es hl h hr ih => exact .close hr rfl ⟨l :: es, rfl⟩
  | noArguments | noTypeArguments | noPatterns | noNames => exact endsLine_nil
  | moreArguments h hs ih ihs | moreTypeArguments h hs ih ihs | morePatterns h hs ih ihs
  | call h hs ih ihs => exact EndsLine.append ih ihs
  | typeCall h hs ihs | moreNames h hs ihs => exact .append (.single h rfl) ihs
  | @enumeration w b es hw h hb ih | @sealed w b es hw h hb ih =>
    cases h
    exact EndsLine.suffix ih (List.cons_ne_nil _ _) (List.suffix_cons w _)
  | @arrow e a t u es fs ht ha hu iht ihu =>
    exact EndsLine.suffix ihu (hu.ne_nil (Or.inr ⟨_, rfl⟩)) ⟨e :: (es ++ [a]), by simp⟩
  | @context l c r a inner shared result ns es fs gs hl hi hn hc hs hr ha hu ihi ihs ihu =>
    exact EndsLine.suffix ihu (hu.ne_nil (Or.inr ⟨_, rfl⟩))
      ⟨l :: (es ++ c :: (fs ++ [r, a])), by simp⟩
  | @signature c n t es fs hn hc ht ihn iht =>
    exact EndsLine.suffix iht (ht.ne_nil (Or.inr ⟨_, rfl⟩)) ⟨es ++ [c], by simp⟩
  | noMembers h | noDecls h | moreMembers h hs hss ih ihs | moreDecls h hs hss ih ihs => trivial
  | @block e l r ns ss loc es fs h hns hl hss hr ihns ihss =>
    exact .close hr rfl ⟨e :: (es ++ l :: fs), by simp⟩
  | @function a n ps x es fs gs hn hp ha hx ihn ihp ihx =>
    exact EndsLine.suffix ihx (hx.ne_nil (Or.inl ⟨_, rfl⟩)) ⟨es ++ (fs ++ [a]), by simp⟩

/-! ## Calls that succeed -/

namespace Parser

/-- The parser has come to `s` by calls on the text that `reads` deliver, all of which have
succeeded.  To read a file is to skip separators and to call for a declaration by turns, so
the places between its declarations are among them. -/
inductive Succeeded (path : String) (reads : List Read) : Parser → Prop where
  | start : Succeeded path reads (.ofReads path reads)
  | file {s t : Parser} {f : File} (h : Succeeded path reads s)
      (e : Parse.file s = .ok f t) : Succeeded path reads t
  | decl {s t : Parser} {d : Decl} (h : Succeeded path reads s)
      (e : Parse.decl s = .ok d t) : Succeeded path reads t
  | expr {s t : Parser} {x : Expr} (h : Succeeded path reads s)
      (e : Parse.expr s = .ok x t) : Succeeded path reads t
  | type {s t : Parser} {a : Ty} (h : Succeeded path reads s)
      (e : Parse.type s = .ok a t) : Succeeded path reads t
  | separators {s t : Parser} (h : Succeeded path reads s)
      (e : Parse.skipSeparators s = .ok () t) : Succeeded path reads t

variable {path : String} {reads : List Read} {s t : Parser} {es : List Entry}

/-- What has been taken leaves no parenthesis open and has closed none that was not. -/
theorem Succeeded.passes (h : Succeeded path reads s) :
    ∃ es, Passes (ofReads path reads) es s ∧ depthBehind 0 es = 0 ∧ Matched 0 es := by
  have hmore : ∀ {s t : Parser} {fs : List Entry} {path' : String} {ph : Phrase},
      (∃ es, Passes (ofReads path reads) es s ∧ depthBehind 0 es = 0 ∧ Matched 0 es) →
      Passes s fs t → Derives path' ph fs →
        ∃ es, Passes (ofReads path reads) es t ∧ depthBehind 0 es = 0 ∧ Matched 0 es := by
    rintro s t fs path' ph ⟨es, hes, hdepth, hmatched⟩ hfs hd
    refine ⟨es ++ fs, hes.trans hfs, ?_, matched_append.2 ⟨hmatched, hd.matched _⟩⟩
    rw [depthBehind_append, hdepth, hd.balanced]
  induction h with
  | start => exact ⟨[], .refl _, rfl, trivial⟩
  | file h e ih =>
    obtain ⟨fs, hfs, hd, -⟩ := Parse.yields_file e
    exact hmore ih hfs hd
  | decl h e ih =>
    obtain ⟨fs, hfs, hd⟩ := Parse.yields_decl _ _ _ e
    exact hmore ih hfs hd
  | expr h e ih =>
    obtain ⟨fs, hfs, hd⟩ := Parse.yields_expr _ _ _ e
    exact hmore ih hfs hd
  | type h e ih =>
    obtain ⟨fs, hfs, hd⟩ := Parse.yields_type _ _ _ e
    exact hmore ih hfs hd
  | @separators s t h e ih =>
    obtain ⟨fs, hfs, hsep⟩ := Parse.yields_separators _ _ _ e
    have hd : Derives path (.decls []) fs := .noDecls hsep
    exact hmore ih hfs hd

/-- The tokens that a parser has passed are those that its lexer has returned. -/
theorem taken_of_passes (h : Passes (ofReads path reads) es s) :
    (Lexer.ofText (.ofReads reads)).taken es.length = es ∧
      s.current = ((Lexer.ofText (.ofReads reads)).nextBy (es.length + 1)).current := by
  have hleft := h.left
  refine ⟨?_, ?_⟩
  · have hall := Tokens.eq_nextBy (.ofText (.ofReads reads))
    have hentries : (Tokens.ofLexer (.ofText (.ofReads reads))).entries = es ++ s.tokens.entries :=
      h.entries
    rw [hentries, List.append_assoc] at hall
    have htake := congrArg (List.take es.length) hall
    rw [List.take_left, ← List.map_take, List.take_range, List.length_append,
      Nat.min_eq_left (by omega)] at htake
    exact htake.symm
  · rw [h.reached, current_ofLexer (x := .ofText (.ofReads reads)) rfl (by omega),
      ← Lexer.nextBy_succ]

end Parser

namespace Lexer

variable {x : Lexer} {n : Nat}

/-- A closing parenthesis among matched tokens found one open. -/
theorem depth_of_matched (h : Matched x.current.depth (x.taken n)) {i : Nat} (hi : i < n)
    (hr : (x.nextBy (i + 1)).current.Is .parenRight) : 0 < (x.nextBy i).current.depth := by
  obtain ⟨k, rfl⟩ : ∃ k, n = i + 1 + k := ⟨n - (i + 1), by omega⟩
  have hsplit : x.taken (i + 1 + k) = x.taken i ++ (x.nextBy (i + 1)).current ::
      (List.range k).map fun j => (x.nextBy (i + 1 + j + 1)).current := by
    rw [taken, List.range_add, List.map_append, List.map_map]
    exact (congrArg (· ++ _) (x.taken_succ i)).trans (List.append_cons _ _ _).symm
  rw [hsplit, matched_append, ← depth_nextBy] at h
  exact h.2.1 hr

/-- Behind a token that can end a line the first newline is a token, if no parenthesis is
open. -/
theorem StandsIn.newline {t : Text} (h : x.StandsIn t) (hends : x.next.current.token.kind.endsLine)
    (hdepth : x.next.current.depth = 0) {gap : List Char} (hgap : t.LineEnds x.next.current gap) :
    x.next.next.current.token = .newline ∧ x.next.next.current.pos =
      x.next.current.pos.afterAll (x.next.current.token.lexeme.toList ++ gap) := by
  obtain ⟨⟨behind, hrest⟩, hskipped⟩ := h.lineEnds_iff.1 hgap
  have hkeep : x.next.current.keepsNewline = true := by
    rw [Entry.keepsNewline, hends, hdepth]
    rfl
  obtain ⟨hg, ha⟩ := gap_of_newline hkeep hrest hskipped
  refine ⟨token_of_newline ha, ?_⟩
  rw [x.next.pos_current_next, hg, Position.afterAll_append, x.pos_next,
    x.toList_lexeme_next]

end Lexer

namespace Parser

variable {path : String} {reads : List Read} {s t : Parser}

/-- A declaration was read from `s` to `t`, and if there is a newline behind its last token and
in front of the next one, the first such newline is the token that `t` stands on. -/
def Separates (reads : List Read) (s t : Parser) : Prop :=
  ∃ es e, Passes s (es ++ [e]) t ∧ ∀ gap, (Text.ofReads reads).LineEnds e gap →
    t.current.token = .newline ∧
      t.current.pos = e.pos.afterAll (e.token.lexeme.toList ++ gap)

/-- The first newline behind a declaration reaches the parser. -/
theorem Succeeded.separates (h : Succeeded path reads s) {d : Decl}
    (hd : Parse.decl s = .ok d t) : Separates reads s t := by
  obtain ⟨fs, hfs, hder⟩ := Parse.yields_decl _ _ _ hd
  have hne : fs ≠ [] := by
    rintro rfl
    have hleft := hfs.left
    have hlt := Parse.decl_lt hd
    rw [List.length_nil] at hleft
    omega
  obtain ⟨e, he⟩ := Option.ne_none_iff_exists'.1 (mt List.getLast?_eq_none_iff.1 hne)
  obtain ⟨front, rfl⟩ := List.getLast?_eq_some_iff.1 he
  obtain ⟨es, hes, hdepth, -⟩ := h.passes
  have hends : e.token.kind.endsLine = true := hder.ends e he
  have hall : depthBehind 0 (es ++ (front ++ [e])) = 0 := by
    rw [depthBehind_append, hdepth, hder.balanced]
  obtain ⟨htaken, hcurrent⟩ := taken_of_passes (hes.trans hfs)
  obtain ⟨n, hn⟩ : ∃ n, (es ++ (front ++ [e])).length = n + 1 :=
    ⟨es.length + front.length, by simp [Nat.add_assoc]⟩
  rw [hn] at htaken hcurrent
  -- The lexer stands behind `e` after `n + 1` calls, one token behind the parser.
  have hlast := Lexer.getLast?_taken_succ n (.ofText (.ofReads reads))
  have hcount := Lexer.depth_nextBy (n + 1) (.ofText (.ofReads reads))
  rw [htaken, ← List.append_assoc, List.getLast?_concat, Lexer.nextBy_succ] at hlast
  have hcount : ((Lexer.ofText (.ofReads reads)).nextBy n).next.current.depth = 0 := by
    rw [← Lexer.nextBy_succ, hcount, htaken]
    exact hall
  have he := Option.some.inj hlast
  refine ⟨front, e, hfs, fun gap hgap => ?_⟩
  rw [he] at hends hgap ⊢
  rw [hcurrent, Lexer.nextBy_succ, Lexer.nextBy_succ]
  exact ((Lexer.standsIn_ofText _).nextBy n).newline hends hcount hgap

/-- So it is for the declarations of a file, whose items are separators and a declaration by
turns. -/
theorem Succeeded.separates_decls {ds : List Decl} (h : Succeeded path reads s)
    (hds : Parse.many Parse.decl? s = .ok ds t) : ∀ d ∈ ds, ∃ u v,
      Succeeded path reads u ∧ Parse.decl u = .ok d v ∧ Separates reads u v := by
  induction hn : s.left using Nat.strong_induction_on generalizing s ds with
  | _ n ih =>
    rw [Parse.many_eq Parse.takes_decl?] at hds
    obtain ⟨o, v, hv, hrest⟩ := Parse.bind_eq_ok hds
    cases o with
    | none =>
      cases hrest
      exact List.forall_mem_nil _
    | some d =>
      obtain ⟨fs, w, hfs, he⟩ := Parse.bind_eq_ok hrest
      cases he
      obtain ⟨u, hu, hd⟩ := Parse.decl?_some hv
      have hs := h.separators hu
      have hlt := Parse.takes_decl? s v d hv
      exact List.forall_mem_cons.2
        ⟨⟨u, v, hs, hd, hs.separates hd⟩, ih _ (hn ▸ hlt) (hs.decl hd) hfs rfl⟩

/-- On any text, after any calls that have all succeeded, the parser has passed as many tokens
as it has taken, and with `n` of them its lexer has returned `n + 1`.  Then the only open
parenthesis that the lexer counts is the token the parser stands on, and each closing one
among those taken found one open.  So the first newline behind a declaration, if it is in
front of the next token, is the token that the parser stands on when it has read the
declaration, called for on its own or within a file. -/
theorem Succeeded.balances (h : Succeeded path reads s) :
    let x := Lexer.ofText (.ofReads reads)
    (∃ n, (ofReads path reads).Steps n s ∧ s.current = (x.nextBy (n + 1)).current ∧
      (x.nextBy (n + 1)).current.depth = (if s.current.Is .parenLeft then 1 else 0) ∧
      ∀ i < n, (x.nextBy (i + 1)).current.Is .parenRight → 0 < (x.nextBy i).current.depth) ∧
    (∀ d t, Parse.decl s = .ok d t → Separates reads s t) ∧
    (∀ f t, Parse.file s = .ok f t → ∀ d ∈ f.decls, ∃ u v,
      Succeeded path reads u ∧ Parse.decl u = .ok d v ∧ Separates reads u v) := by
  intro x
  refine ⟨?_, fun d t => h.separates, ?_⟩
  · obtain ⟨es, hes, hdepth, hmatched⟩ := h.passes
    obtain ⟨htaken, hcurrent⟩ := taken_of_passes hes
    have hleft := hes.left
    refine ⟨es.length, ⟨hes.reached, by omega⟩, hcurrent, ?_, fun i hi hr => ?_⟩
    · have hcount := Lexer.depth_nextBy es.length x
      rw [htaken, show x.current.depth = 0 from rfl, hdepth] at hcount
      rw [Lexer.nextBy_succ, Lexer.depth_next, hcount, hcurrent, Lexer.nextBy_succ]
      exact depthAfter_zero _
    · exact Lexer.depth_of_matched (htaken.symm ▸ hmatched) hi hr
  · intro f t hf
    unfold Parse.file at hf
    rw [Parse.here_bind] at hf
    obtain ⟨ds, u, hds, he⟩ := Parse.bind_eq_ok hf
    rw [Parse.here_bind] at he
    cases he
    exact h.separates_decls hds

/-- Behind the newline of a declaration the parser stands on a parenthesis, and reads on from
there. -/
theorem Succeeded.balances_operator :
    let reads := [Read.bytes "f = (a)\n(+) : T\n".toUTF8]
    let s := Parse.skipSeparators.after (Parse.decl.after (.ofReads "" reads))
    Succeeded "" reads s ∧ s.current.Is .parenLeft ∧
      (∃ n, s.current = ((Lexer.ofText (.ofReads reads)).nextBy (n + 1)).current ∧
        ((Lexer.ofText (.ofReads reads)).nextBy (n + 1)).current.depth = 1) ∧
      ∃ d t, Parse.decl s = .ok d t ∧ Separates reads s t := by
  intro reads s
  have hfirst : Parse.decl.accepts (.ofReads "" reads) := by decide +kernel
  have hskip : Parse.skipSeparators.accepts (Parse.decl.after (.ofReads "" reads)) := by
    decide +kernel
  have hnext : Parse.decl.accepts s := by decide +kernel
  have hcurrent : s.current.Is .parenLeft := by decide +kernel
  obtain ⟨_, hfirst⟩ := Parse.ok_after hfirst
  obtain ⟨_, hskip⟩ := Parse.ok_after hskip
  obtain ⟨d, hd⟩ := Parse.ok_after hnext
  have hs : Succeeded "" reads s := .separators (.decl .start hfirst) hskip
  obtain ⟨⟨n, -, hn, hdepth, -⟩, hdecl, -⟩ := hs.balances
  rw [if_pos hcurrent] at hdepth
  exact ⟨hs, hcurrent, ⟨n, hn, hdepth⟩, d, _, hd, hdecl d _ hd⟩

end Parser
end FrontEnd
