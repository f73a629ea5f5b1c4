import FrontEnd.Proofs.Grammar.Nesting
import FrontEnd.Proofs.Lexing.Enclosing
import FrontEnd.Proofs.Surface.Derivation
import FrontEnd.Proofs.Tree.Text

/-!
# Redundant parentheses

A type or an expression that is all of a text may be put in parentheses.  The tokens
between them are the tokens of the text, because a phrase closes what it opens and takes no
separator, and a parse depends on nothing but the tokens that it takes and the kind of the
one that it stops at.  What the parentheses then add is taken away again: they leave no trace
around a type, and around a call without further arguments they are that call.
-/

namespace FrontEnd

namespace Location

/-- Where something stands once there is a parenthesis in front of the text. -/
def inside (l : Location) : Location :=
  .ofPosition l.path l.position.inside

end Location

def Phrase.Unseparated : Phrase → List Entry → Prop
  | .expr _, es | .head _, es | .argument _, es | .arguments _, es | .call _, es | .type _, es
  | .atom _, es | .typeCall _, es | .typeArgument _, es | .typeArguments _, es =>
    ∀ e ∈ es, ¬ e.Is .semi
  | _, _ => True

theorem ne_semi_of_is {e : Entry} {k : TokenKind} (h : e.Is k) (hk : k ≠ .semi) :
    ¬ e.Is .semi := by
  intro hs
  exact hk (h.symm.trans hs)

theorem unseparated_nested {l r : Entry} {es : List Entry} (hl : l.Is .parenLeft)
    (hr : r.Is .parenRight) (h : ∀ e ∈ es, ¬ e.Is .semi) :
    ∀ e ∈ l :: (es ++ [r]), ¬ e.Is .semi := by
  simp only [List.forall_mem_cons, List.forall_mem_append]
  exact ⟨ne_semi_of_is hl (by decide), h, ne_semi_of_is hr (by decide), List.forall_mem_nil _⟩

theorem unseparated_operator {o : Entry} (ho : o.IsOperator) : ∀ e ∈ [o], ¬ e.Is .semi := by
  intro e he
  rw [List.mem_singleton.1 he]
  exact ho.elim (ne_semi_of_is · (by decide)) (ne_semi_of_is · (by decide))

theorem Derives.unseparated {path : String} {ph : Phrase} {es : List Entry}
    (h : Derives path ph es) : ph.Unseparated es := by
  induction h with
  | integer h | float h | headName h | argumentInteger h | argumentFloat h | argumentName h
  | typeArgumentName h =>
    exact List.forall_mem_cons.2 ⟨ne_semi_of_is h (by decide), List.forall_mem_nil _⟩
  | application h ih | atomCall h ih | typeAtom h ih => exact ih
  | headOperator hl ho hr | argumentOperator hl ho hr =>
    exact unseparated_nested hl hr (unseparated_operator ho)
  | headNested hl h hr ih | argumentNested hl h hr ih | typeArgumentNested hl h hr ih
  | atomNested hl h hr ih => exact unseparated_nested hl hr ih
  | noArguments | noTypeArguments => exact List.forall_mem_nil _
  | moreArguments h hs ih ihs | moreTypeArguments h hs ih ihs =>
    exact List.forall_mem_append.2 ⟨ih, ihs⟩
  | call h hs ih ihs =>
    rw [Phrase.Unseparated, ← List.cons_append]
    exact List.forall_mem_append.2 ⟨ih, ihs⟩
  | typeCall h hs ihs => exact List.forall_mem_cons.2 ⟨ne_semi_of_is h (by decide), ihs⟩
  | arrow ht ha hu iht ihu =>
    simp only [Phrase.Unseparated, List.forall_mem_cons, List.forall_mem_append] at iht ihu ⊢
    exact ⟨iht.1, iht.2, ne_semi_of_is ha (by decide), ihu⟩
  | context hl hi hn hc hs hr ha hu ihi ihs ihu =>
    simp only [Phrase.Unseparated, List.forall_mem_cons, List.forall_mem_append] at ihi ihs ihu ⊢
    have harrow := ne_semi_of_is (congrArg Token.kind ha) (by decide)
    exact ⟨ne_semi_of_is hl (by decide), ihi, ne_semi_of_is hc (by decide), ihs,
      ne_semi_of_is hr (by decide), harrow, ihu⟩
  | _ => trivial

theorem Matched.encloseable {depth : Nat} {es : List Entry} (h : Matched depth es)
    (hs : ∀ e ∈ es, ¬ e.Is .semi) : Encloseable depth es := by
  induction es generalizing depth with
  | nil => trivial
  | cons e es ih =>
    obtain ⟨he, hes⟩ := List.forall_mem_cons.1 hs
    exact ⟨he, h.1, ih h.2 hes⟩

namespace Parser

/-- The parser `s'` stands in front of the text that `s` stands in front of, in
parentheses. -/
structure Wraps (s s' : Parser) : Prop where
  first : s'.current.Is .parenLeft
  mirrors : s.Mirrors Location.inside s.left s'.advance
  close : (s'.advance.passBy s.left).current.Is .parenRight
  ends : (s'.advance.passBy s.left).advance.current.Is .eof

variable {s s' : Parser}

theorem current_eq_getElem? (s : Parser) {n : Nat} {e : Entry} (h : s.tokens.entries[n]? = some e) :
    (s.passBy n).current = e := by
  rw [current_passBy, Tokens.entry, List.getD_eq_getElem?_getD, h, Option.getD_some]

/-- Tokens of which the middle ones are those of `s` in parentheses. -/
theorem Wraps.of_entries {l r : Entry} {es : List Entry}
    (h : s'.tokens.entries = l :: (es ++ [r])) (hpath : s'.path = s.path)
    (hl : l.Is .parenLeft) (hr : r.Is .parenRight)
    (htoken : es.map (·.token) = s.tokens.entries.map (·.token))
    (hpos : es.map (·.pos) = s.tokens.entries.map (·.pos.inside)) : Wraps s s' := by
  have hlen : es.length = s.left := by
    have hmaps := congrArg List.length htoken
    rwa [List.length_map, List.length_map] at hmaps
  have hcurrent : s'.current = l := by
    simp [current, Tokens.current, h]
  have hadv : s'.advance = s'.passBy 1 := by
    refine (pass_of_isPlain ?_).symm
    rw [hcurrent, hl]
    rfl
  have hclose : (s'.advance.passBy s.left).current = r := by
    rw [hadv, ← passBy_add]
    refine s'.current_eq_getElem? ?_
    rw [h, Nat.add_comm, List.getElem?_cons_succ, ← hlen]
    simp
  refine ⟨hcurrent ▸ hl, fun i hi => ?_, hclose ▸ hr, ?_⟩
  · have hi' : i < es.length := hlen ▸ hi
    have hentry : s.tokens.entries[i]? = some s.tokens.entries[i] := List.getElem?_eq_getElem hi
    have hplace : (s'.advance.passBy i).current = es[i] := by
      rw [hadv, ← passBy_add]
      refine s'.current_eq_getElem? ?_
      rw [h, Nat.add_comm, List.getElem?_cons_succ, List.getElem?_append_left hi',
        List.getElem?_eq_getElem hi']
    have htokens := congrArg (·[i]?) htoken
    have hposs := congrArg (·[i]?) hpos
    simp only [List.getElem?_map, List.getElem?_eq_getElem hi', hentry, Option.map_some,
      Option.some.injEq] at htokens hposs
    refine ⟨?_, ?_⟩
    · rw [hplace, s.current_eq_getElem? hentry, htokens]
    · unfold here
      rw [hplace, s.current_eq_getElem? hentry, hposs, hadv, ← passBy_add, path_passBy,
        path_passBy, hpath]
      rfl
  · have hplain : (s'.advance.passBy s.left).current.token.kind.isPlain = true := by
      rw [hclose, hr]
      rfl
    rw [← pass_of_isPlain hplain, ← passBy_succ, hadv, ← passBy_add, current_passBy, Tokens.entry,
      List.getD_eq_getElem?_getD, List.getElem?_eq_none, Option.getD_none]
    · exact s'.tokens.last_eof
    · rw [h, List.length_cons, List.length_append, hlen, List.length_singleton]
      omega

/-- A text with one phrase in it, and the same text in parentheses. -/
theorem wraps_ofReads (path : String) {text : String} {reads reads' : List Read}
    (h : Delivers reads text.toUTF8) (h' : Delivers reads' ("(" ++ text ++ ")").toUTF8)
    (hmark : text.toList.head? ≠ some Source.byteOrderMark)
    (hs : Encloseable 0 (ofReads path reads).tokens.entries) :
    Wraps (ofReads path reads) (ofReads path reads') := by
  obtain ⟨hfirst, hencloses⟩ := Lexer.encloses_ofReads h h' hmark
  obtain ⟨es, r, hes, hr, htoken, hpos⟩ := Tokens.enclosed _ _ hencloses hs
  have hne : (Lexer.ofText (.ofReads reads')).next.current.token.kind ≠ .eof := by
    rw [hfirst]
    decide
  refine .of_entries ?_ rfl (congrArg Token.kind hfirst) hr htoken hpos
  rw [← hes]
  exact (Tokens.ofLexer_more hne).1

end Parser

theorem Expr.text_applied (x : Expr) (loc : Location) :
    (Expr.call (.applied x [] loc)).text = x.text := by
  cases x with
  | call c => rfl
  | _ => simp [Call.applied, Expr.text, Call.text]

namespace Parse

variable {α : Type} {s s' t : Parser}

/-- What reads all of a text reads it between parentheses, up to the closing one. -/
theorem Local.wrapped {P : TokenKind → Prop} {move : α → α} {x : Parse α} {a : α}
    (hx : Local Location.inside P move x x s) (hs : s.Wraps s') (h : x s = .ok a t)
    (hleft : t.left = 0) (hP : P .parenRight) :
    x s'.advance = .ok (move a) (s'.advance.passBy s.left) := by
  obtain ⟨n, hn, hsame⟩ := hx.ok h
  have hall : n = s.left := by
    have hsum := hn.left
    omega
  subst hall
  exact hsame s'.advance hs.mirrors (Or.inr (hs.close ▸ hP))

theorem expect_right (hs : s.Wraps s') :
    expect .parenRight (s'.advance.passBy s.left) =
      .ok (s'.advance.passBy s.left).current.token (s'.advance.passBy s.left).advance := by
  unfold expect
  rw [kind_bind, if_pos hs.close]
  rfl

theorem type_wrapped {a : Ty} (hs : s.Wraps s') (h : type s = .ok a t) (hleft : t.left = 0) :
    type s' = .ok (a.relocate Location.inside) (s'.advance.passBy s.left).advance := by
  have hinner := local_type.wrapped hs h hleft (by exact ⟨rfl, by decide⟩)
  have hcolon : (s'.advance.passBy s.left).current.token.kind ≠ .colon := by
    rw [hs.close]
    decide
  have hend : (s'.advance.passBy s.left).advance.current.token.kind ≠ .arrow := by
    rw [hs.ends]
    decide
  rw [congrFun type_eq s']
  unfold typeLevel
  rw [here_bind, kind_bind, show s'.current.token.kind = _ from hs.first]
  dsimp only
  rw [advance_bind, bind_ok hinner, kind_bind, if_neg hcolon, bind_ok (expect_right hs)]
  exact arrowTail_stop type _ _ hend

/-- An expression in parentheses is the head of a call without arguments. -/
theorem expr_wrapped {a : Expr} (hs : s.Wraps s') (h : expr s = .ok a t) (hleft : t.left = 0)
    (hpos : 0 < s.left) :
    expr s' = .ok (.call (.applied (a.relocate Location.inside) [] s'.here))
      (s'.advance.passBy s.left).advance := by
  have hinner := local_expr.wrapped hs h hleft (by exact rfl)
  have hbegins : ¬ s'.advance.current.IsOperator := by
    have hfirst : s'.advance.current.token.kind = s.current.token.kind :=
      (hs.mirrors 0 hpos).kind
    refine not_isOperator_of_begins ?_
    rw [hfirst]
    exact expr_begins h
  have hhead : head expr s' = .ok (a.relocate Location.inside)
      (s'.advance.passBy s.left).advance := by
    unfold head
    rw [kind_bind, if_pos hs.first]
    unfold parenthesized
    rw [advance_bind, bind_ok ((operatorOr_expr .name hbegins).trans hinner),
      bind_ok (expect_right hs)]
    rfl
  have hargs : many (argument? expr) (s'.advance.passBy s.left).advance =
      .ok [] (s'.advance.passBy s.left).advance := by
    refine many_nil (takes_argument? closed_forward.expr) (argument?_stop expr ?_)
    rw [hs.ends]
    rfl
  rw [congrFun expr_eq s']
  unfold exprLevel
  rw [kind_bind, show s'.current.token.kind = _ from hs.first]
  dsimp only
  rw [bind_ok (application_ok hhead hargs)]
  rfl

/-- Where a phrase is read up to the end of a text, the tokens of the text are its tokens. -/
theorem read_all {path : String} {reads : List Read} {ph : Phrase} {es : List Entry}
    (hp : Passes (.ofReads path reads) es t) (hd : Derives path ph es)
    (hu : ∀ e ∈ es, ¬ e.Is .semi) (ht : t.current.Is .eof) :
    t.left = 0 ∧ (Parser.ofReads path reads).tokens.entries = es ∧
      Encloseable 0 (Parser.ofReads path reads).tokens.entries := by
  obtain ⟨hes, -⟩ := hp.ended (Tokens.kind_ne_eof _) ht
  have hleft := hp.left
  have hcount : (Parser.ofReads path reads).left = es.length := congrArg List.length hes
  refine ⟨by omega, hes, ?_⟩
  rw [hes]
  exact (hd.matched 0).encloseable hu

def IsLiteral (s : Parser) : Prop :=
  ∃ e, s.tokens.entries = [e] ∧ (e.Is .integer ∨ e.Is .float)

open Surface (away)

/-- Around a type that is all of a text parentheses change nothing but the locations.  Around
an expression they do neither, except that one literal in parentheses is a call of that
literal without arguments, which reads the same. -/
theorem parentheses (path : String) {text : String} {reads reads' : List Read}
    (h : Delivers reads text.toUTF8) (h' : Delivers reads' ("(" ++ text ++ ")").toUTF8)
    (hmark : text.toList.head? ≠ some Source.byteOrderMark) :
    (∀ a t, type (.ofReads path reads) = .ok a t → t.current.Is .eof →
      ∃ b u, type (.ofReads path reads') = .ok b u ∧ u.current.Is .eof ∧
        b.relocate away = a.relocate away) ∧
    ∀ a t, expr (.ofReads path reads) = .ok a t → t.current.Is .eof →
      ∃ b u, expr (.ofReads path reads') = .ok b u ∧ u.current.Is .eof ∧ b.text = a.text ∧
        (¬ IsLiteral (.ofReads path reads) → b.relocate away = a.relocate away) := by
  refine ⟨fun a t ha ht => ?_, fun a t ha ht => ?_⟩
  · obtain ⟨es, hp, hd⟩ := yields_type _ t a ha
    obtain ⟨hleft, -, hes⟩ := read_all hp hd hd.unseparated ht
    have hwraps := Parser.wraps_ofReads path h h' hmark hes
    refine ⟨_, _, type_wrapped hwraps ha hleft, hwraps.ends, ?_⟩
    exact Ty.relocate_relocate Location.inside away a
  · obtain ⟨es, hp, hd⟩ := yields_expr _ t a ha
    obtain ⟨hleft, hentries, hes⟩ := read_all hp hd hd.unseparated ht
    have hwraps := Parser.wraps_ofReads path h h' hmark hes
    obtain ⟨e, fs, rfl, -⟩ := hd.begins
    have hpos : 0 < (Parser.ofReads path reads).left := by
      unfold Parser.left
      rw [hentries]
      exact Nat.zero_lt_succ _
    have htext := (Expr.text_applied (a.relocate Location.inside)
      (Parser.ofReads path reads').here).trans (Expr.text_relocate Location.inside a)
    refine ⟨_, _, expr_wrapped hwraps ha hleft hpos, hwraps.ends, htext, fun hno => ?_⟩
    cases hd with
    | @application c es h =>
      have hcall : Call.applied ((Expr.call c).relocate Location.inside) []
          (Parser.ofReads path reads').here = c.relocate Location.inside := by
        rw [Expr.relocate]
        rfl
      rw [hcall, ← Expr.relocate]
      exact Expr.relocate_relocate Location.inside away (.call c)
    | integer hk => exact absurd ⟨e, hentries, Or.inl hk⟩ hno
    | float hk => exact absurd ⟨e, hentries, Or.inr hk⟩ hno

theorem parentheses_newline :
    (∃ a t b u, type (.ofReads "" [.bytes "f (x\n y)".toUTF8]) = .ok a t ∧
      type (.ofReads "" [.bytes ("(" ++ "f (x\n y)" ++ ")").toUTF8]) = .ok b u ∧
      b.relocate away = a.relocate away) ∧
    ∃ a t b u, expr (.ofReads "" [.bytes "f (x\n y)".toUTF8]) = .ok a t ∧
      expr (.ofReads "" [.bytes ("(" ++ "f (x\n y)" ++ ")").toUTF8]) = .ok b u ∧
      b.text = a.text := by
  have htype : type.readsAll (.ofReads "" [.bytes "f (x\n y)".toUTF8]) := by decide +kernel
  have hexpr : expr.readsAll (.ofReads "" [.bytes "f (x\n y)".toUTF8]) := by decide +kernel
  obtain ⟨a, t, ha, ht⟩ := readsAll_iff.1 htype
  obtain ⟨x, v, hx, hv⟩ := readsAll_iff.1 hexpr
  obtain ⟨htypes, hexprs⟩ :=
    parentheses "" (.single _) (.single _) (by decide : "f (x\n y)".toList.head? ≠ _)
  obtain ⟨b, u, hb, -, hab⟩ := htypes a t ha ht
  obtain ⟨y, w, hy, -, hxy, -⟩ := hexprs x v hx hv
  exact ⟨⟨a, t, b, u, ha, hb, hab⟩, x, v, y, w, hx, hy, hxy⟩

end Parse
end FrontEnd
