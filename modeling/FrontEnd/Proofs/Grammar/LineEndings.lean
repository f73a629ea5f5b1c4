import FrontEnd.Proofs.Grammar.EarliestError
import FrontEnd.Proofs.Grammar.Invariant
import FrontEnd.Proofs.Lexing.LineEndings

/-!
# Files with Windows line endings

Carriage returns in front of newlines move no token but the newlines that separate, and no
location of a tree is one of theirs.  So a file is the same with them, and only an error that
has found such a newline is located one column further right.
-/

namespace FrontEnd

variable {f : Location → Location}

/-! ## Trees that stay in place -/

/-- `f` moves no location of the phrase.  That of a block is the one of the word in front. -/
def Phrase.Fixed (f : Location → Location) : Phrase → Prop
  | expr x | head x | argument x | typeArgument x => x.relocate f = x
  | arguments xs | typeArguments xs => xs.map (Expr.relocate f) = xs
  | call c | typeCall c => c.relocate f = c
  | type t | atom t => t.relocate f = t
  | pattern p => p.relocate f = p
  | patterns ps => ps.map (Pattern.relocate f) = ps
  | declName n => n.relocate f = n
  | names ns => ns.map (Name.relocate f) = ns
  | signature s => s.relocate f = s
  | members ss => ss.map (Signature.relocate f) = ss
  | block b => b.relocate f = { b with loc := f b.loc }
  | decl d => d.relocate f = d
  | decls ds => ds.map (Decl.relocate f) = ds

/-- `f` moves no token but separators. -/
def Stays (f : Location → Location) (path : String) (es : List Entry) : Prop :=
  ∀ e ∈ es, ¬ e.Is .semi → f (e.loc path) = e.loc path

section Stays

variable {path : String} {e : Entry} {es fs : List Entry}

theorem stays_append : Stays f path (es ++ fs) ↔ Stays f path es ∧ Stays f path fs :=
  List.forall_mem_append

theorem stays_cons :
    Stays f path (e :: es) ↔ (¬ e.Is .semi → f (e.loc path) = e.loc path) ∧ Stays f path es :=
  List.forall_mem_cons

theorem Stays.tail (h : Stays f path (e :: es)) : Stays f path es :=
  (stays_cons.1 h).2

theorem Stays.loc {k : TokenKind} (h : Stays f path (e :: es)) (he : e.Is k) (hk : k ≠ .semi) :
    f (e.loc path) = e.loc path :=
  (stays_cons.1 h).1 fun hs => hk (he.symm.trans hs)

theorem Stays.name {k : TokenKind} (h : Stays f path (e :: es)) (he : e.Is k) (hk : k ≠ .semi) :
    (e.name path).relocate f = e.name path :=
  congrArg (Name.mk e.token.lexeme) (h.loc he hk)

theorem Stays.loc_first (h : Stays f path (e :: es))
    (hb : ∃ a as, e :: es = a :: as ∧ a.token.kind.beginsTypeArgument = true) :
    f (e.loc path) = e.loc path := by
  obtain ⟨a, as, heq, ha⟩ := hb
  refine (stays_cons.1 h).1 fun hs => ?_
  rw [← (List.cons.inj heq).1, hs] at ha
  cases ha

theorem Stays.operator (h : Stays f path (e :: es)) (he : e.IsOperator) :
    (e.name path).relocate f = e.name path :=
  he.elim (fun he => h.name he (by decide)) fun he => h.name he (by decide)

end Stays

theorem Name.loc_fixed {n : Name} (h : n.relocate f = n) : f n.loc = n.loc :=
  congrArg Name.loc h

theorem Expr.fixed_ofInteger {v : Parse.Converted Nat} (h : f v.2 = v.2) :
    (Expr.ofInteger v).relocate f = .ofInteger v := by
  rw [relocate_ofInteger, h]

theorem Expr.fixed_ofFloat {v : Parse.Converted Double} (h : f v.2 = v.2) :
    (Expr.ofFloat v).relocate f = .ofFloat v := by
  rw [relocate_ofFloat, h]

theorem Pattern.fixed_ofInteger {v : Parse.Converted Nat} (h : f v.2 = v.2) :
    (Pattern.ofInteger v).relocate f = .ofInteger v := by
  rw [relocate_ofInteger, h]

theorem Pattern.fixed_ofFloat {v : Parse.Converted Double} (h : f v.2 = v.2) :
    (Pattern.ofFloat v).relocate f = .ofFloat v := by
  rw [relocate_ofFloat, h]

theorem Expr.fixed_name {n : Name} (h : n.relocate f = n) :
    (Expr.name n).relocate f = .name n := by
  rw [relocate, h]

theorem Expr.fixed_reference {n : Name} (h : n.relocate f = n) :
    (Expr.call n.toCall).relocate f = .call n.toCall := by
  rw [relocate, Name.relocate_toCall, h]

theorem Expr.fixed_call {c : Call} (h : c.relocate f = c) :
    (Expr.call c).relocate f = .call c := by
  rw [relocate, h]

theorem Call.fixed_applied {fn : Expr} {args : List Expr} {loc : Location}
    (hfn : fn.relocate f = fn) (hargs : args.map (Expr.relocate f) = args) (hloc : f loc = loc) :
    (applied fn args loc).relocate f = applied fn args loc := by
  rw [relocate_applied, hfn, hargs, hloc]

theorem Call.fixed_ofName {n : Name} {args : List Expr} {loc : Location} (hn : n.relocate f = n)
    (hargs : args.map (Expr.relocate f) = args) (hloc : f loc = loc) :
    (Call.mk (.name n) args false loc).relocate f = ⟨.name n, args, false, loc⟩ := by
  rw [relocate, Expr.fixed_name hn, Expr.relocateAll_eq, hargs, hloc]

theorem Ty.fixed_app {c : Call} (h : c.relocate f = c) : (Ty.app c).relocate f = .app c := by
  rw [relocate, h]

theorem Ty.fixed_toExpr {t : Ty} (h : t.relocate f = t) : t.toExpr.relocate f = t.toExpr := by
  rw [relocate_toExpr, h]

theorem Ty.fixed_arrow {t u : Ty} {loc : Location} (ht : t.relocate f = t)
    (hu : u.relocate f = u) (hloc : f loc = loc) :
    (Ty.func ⟨[], [t, u], loc⟩).relocate f = .func ⟨[], [t, u], loc⟩ := by
  simp only [relocate, FuncTy.relocate, Field.relocateAll, relocateAll, ht, hu, hloc]

theorem Ty.fixed_fieldNames {t : Ty} {ns : List Name} (ht : t.relocate f = t)
    (h : t.fieldNames = .ok ns) : ns.map (Name.relocate f) = ns := by
  have hmoved := t.fieldNames_relocate (f := f)
  rw [ht, h] at hmoved
  exact (Except.ok.inj hmoved).symm

theorem Ty.fixed_withContext {inner shared t : Ty} {ns : List Name} {loc : Location}
    (hn : inner.fieldNames = .ok ns) (hi : inner.relocate f = inner)
    (hs : shared.relocate f = shared) (ht : t.relocate f = t) (hloc : f loc = loc) :
    (t.withContext ns shared loc).relocate f = t.withContext ns shared loc := by
  rw [relocate_withContext, ht, hs, fixed_fieldNames hi hn, hloc]

theorem Signature.fixed_mk {n : Name} {t : Ty} (hn : n.relocate f = n) (ht : t.relocate f = t) :
    (Signature.mk n t n.loc).relocate f = ⟨n, t, n.loc⟩ := by
  rw [relocate, hn, ht, Name.loc_fixed hn]

theorem Function.fixed_mk {n : Name} {ps : List Pattern} {x : Expr} (hn : n.relocate f = n)
    (hps : ps.map (Pattern.relocate f) = ps) (hx : x.relocate f = x) :
    (Function.mk n none ps (some x) n.loc).relocate f = ⟨n, none, ps, some x, n.loc⟩ := by
  rw [relocate, hn, hps, Name.loc_fixed hn, Option.map_some, hx]
  rfl

theorem Block.fixed_mk {n : Name} {ns : List Name} {ss : List Signature} {loc : Location}
    (hn : n.relocate f = n) (hns : ns.map (Name.relocate f) = ns)
    (hss : ss.map (Signature.relocate f) = ss) :
    (Block.mk n ns ss loc).relocate f = ⟨n, ns, ss, f loc⟩ := by
  rw [relocate, hn, hns, hss]

theorem Block.fixed_word {b : Block} {loc : Location} (h : b.relocate f = { b with loc := f b.loc })
    (hb : b.loc = loc) (hloc : f loc = loc) : b.relocate f = b := by
  rw [h, hb, hloc, ← hb]

/-- A phrase has only the locations of tokens that do not separate. -/
theorem Derives.fixed {path : String} {ph : Phrase} {es : List Entry} (h : Derives path ph es)
    (hes : Stays f path es) : ph.Fixed f := by
  induction h with
  | integer h | argumentInteger h => exact Expr.fixed_ofInteger (hes.loc h (by decide))
  | float h | argumentFloat h => exact Expr.fixed_ofFloat (hes.loc h (by decide))
  | patternInteger h => exact Pattern.fixed_ofInteger (hes.loc h (by decide))
  | patternFloat h => exact Pattern.fixed_ofFloat (hes.loc h (by decide))
  | application h ih => exact Expr.fixed_call (ih hes)
  | atomCall h ih => exact Ty.fixed_app (ih hes)
  | typeAtom h ih => exact ih hes
  | declSignature h ih => exact congrArg Decl.signature (ih hes)
  | headName h => exact Expr.fixed_name (hes.name h (by decide))
  | headOperator hl ho hr => exact Expr.fixed_name (hes.tail.operator ho)
  | argumentOperator hl ho hr => exact Expr.fixed_reference (hes.tail.operator ho)
  | declOperator hl ho hr => exact hes.tail.operator ho
  | headNested hl h hr ih | argumentNested hl h hr ih | atomNested hl h hr ih =>
    exact ih (stays_append.1 hes.tail).1
  | typeArgumentNested hl h hr ih => exact Ty.fixed_toExpr (ih (stays_append.1 hes.tail).1)
  | patternCall hl h hr ih => exact congrArg Pattern.call (ih (stays_append.1 hes.tail).1)
  | argumentName h | typeArgumentName h => exact Expr.fixed_reference (hes.name h (by decide))
  | patternName h => exact congrArg Pattern.name (hes.name h (by decide))
  | declIdent h => exact hes.name h (by decide)
  | noArguments | noTypeArguments | noPatterns | noNames | noMembers h | noDecls h => rfl
  | moreArguments h hs ih ihs | moreTypeArguments h hs ih ihs | morePatterns h hs ih ihs =>
    obtain ⟨hfirst, hrest⟩ := stays_append.1 hes
    exact congrArg₂ List.cons (ih hfirst) (ihs hrest)
  | call h hs ih ihs =>
    obtain ⟨hhead, hargs⟩ := stays_append.1 ((List.cons_append ..).symm ▸ hes)
    exact Call.fixed_applied (ih hhead) (ihs hargs) (hhead.loc_first h.begins)
  | typeCall h hs ihs =>
    exact Call.fixed_ofName (hes.name h (by decide)) (ihs hes.tail) (hes.loc h (by decide))
  | arrow ht ha hu iht ihu =>
    obtain ⟨hatom, hrest⟩ := stays_append.1 ((List.cons_append ..).symm ▸ hes)
    exact Ty.fixed_arrow (iht hatom) (ihu hrest.tail) (hatom.loc_first ht.begins)
  | context hl hi hn hc hs hr ha hu ihi ihs ihu =>
    obtain ⟨hinner, hrest⟩ := stays_append.1 hes.tail
    obtain ⟨hshared, hrest⟩ := stays_append.1 hrest.tail
    exact Ty.fixed_withContext hn (ihi hinner) (ihs hshared) (ihu hrest.tail.tail)
      (hes.loc hl (by decide))
  | moreNames h hs ihs => exact congrArg₂ List.cons (hes.name h (by decide)) (ihs hes.tail)
  | signature hn hc ht ihn iht =>
    obtain ⟨hname, hrest⟩ := stays_append.1 hes
    exact Signature.fixed_mk (ihn hname) (iht hrest.tail)
  | moreMembers h hs hss ih ihs | moreDecls h hs hss ih ihs =>
    obtain ⟨hfirst, hrest⟩ := stays_append.1 (stays_append.1 hes).2
    exact congrArg₂ List.cons (ih hfirst) (ihs hrest)
  | block h hns hl hss hr ihns ihss =>
    obtain ⟨hnames, hrest⟩ := stays_append.1 hes.tail
    exact Block.fixed_mk (hes.name h (by decide)) (ihns hnames)
      (ihss (stays_append.1 hrest.tail).1)
  | function hn hp ha hx ihn ihp ihx =>
    obtain ⟨hname, hrest⟩ := stays_append.1 hes
    obtain ⟨hparams, hrest⟩ := stays_append.1 hrest
    exact congrArg Decl.function
      (Function.fixed_mk (ihn hname) (ihp hparams) (ihx hrest.tail))
  | enumeration hw h hb ih =>
    exact congrArg Decl.enumeration (Block.fixed_word (ih hes.tail) hb (hes.loc hw (by decide)))
  | sealed hw h hb ih =>
    exact congrArg Decl.sealed (Block.fixed_word (ih hes.tail) hb (hes.loc hw (by decide)))

/-! ## Errors that stay in place -/

def SyntaxError.Fixed (f : Location → Location) : SyntaxError → Prop
  | .expected .. => True
  | .invalidField loc => f loc = loc

namespace Parse

theorem kept_stays (f : Location → Location) :
    Kept (fun s => Stays f s.path s.tokens.entries) (fun e _ => e.Fixed f) where
  advance s hs e he := by
    rw [s.path_advance]
    refine hs e ?_
    unfold Parser.advance at he
    split at he
    · exact he
    · next hes =>
      rw [hes]
      exact List.mem_cons_of_mem _ he
  report _ _ hs := hs
  fail _ _ _ := trivial

/-- What is no name of a context stands at a token of a type. -/
theorem Refusals.stays (f : Location → Location) :
    Refusals (fun s => Stays f s.path s.tokens.entries) (fun e _ => e.Fixed f) := by
  intro s t es inner e hs hp hd _ hn
  have hstays : Stays f s.path es := by
    rw [hp.entries] at hs
    exact (stays_append.1 hs).1
  have hinner : inner.relocate f = inner := hd.fixed hstays
  have hmoved := inner.fieldNames_relocate (f := f)
  rw [hinner, hn] at hmoved
  cases e with
  | expected what found loc => trivial
  | invalidField loc => exact (SyntaxError.invalidField.inj (Except.error.inj hmoved)).symm

/-- Declarations are where their tokens are, and so is what is wrong with a context. -/
theorem decls_stay {s t : Parser} (hs : Stays f s.path s.tokens.entries) :
    (∀ ds, many decl? s = .ok ds t → ds.map (Decl.relocate f) = ds) ∧
      ∀ e, many decl? s = .error e t → e.Fixed f := by
  constructor
  · intro ds hd
    obtain ⟨es, hp, hderives⟩ := yields_decls s t ds hd
    rw [hp.entries] at hs
    exact hderives.fixed (stays_append.1 hs).1
  · intro e hd
    have hc := (kept_stays f).closed
    exact (hc.many (hc.decl? ((kept_stays f).type (Refusals.stays f))) s hs).error hd

end Parse

/-! ## Parsers of texts with carriage returns -/

/-- One column further right for a newline among the tokens, which has a return in front. -/
def Location.returned (path : String) (es : List Entry) (l : Location) : Location :=
  if ∃ e ∈ es, e.token = .newline ∧ e.loc path = l then ⟨l.path, l.line, l.col + 1⟩ else l

/-- An error that has found a newline stands one column further right, as the newline does. -/
def SyntaxError.returned : SyntaxError → SyntaxError
  | .expected what found loc =>
    .expected what found (if found = .newline then ⟨loc.path, loc.line, loc.col + 1⟩ else loc)
  | .invalidField loc => .invalidField loc

/-- Only newlines are moved, since no other token stands where one does. -/
theorem InOrder.loc_returned {es : List Entry} (h : InOrder es) (path : String) {e : Entry}
    (he : e ∈ es) : e.returned.loc path = (e.loc path).returned path es := by
  have hfound : (∃ a ∈ es, a.token = .newline ∧ a.loc path = e.loc path) ↔
      e.token = .newline := by
    constructor
    · rintro ⟨a, ha, htoken, hloc⟩
      have hpos : a.pos = e.pos := congrArg Location.position hloc
      rwa [h.eq_of_pos ha he hpos] at htoken
    · exact fun htoken => ⟨e, he, htoken, rfl⟩
  unfold Location.returned Entry.returned
  by_cases htoken : e.token = .newline
  · rw [if_pos htoken, if_pos (hfound.2 htoken)]
    rfl
  · rw [if_neg htoken, if_neg (mt hfound.1 htoken)]

theorem InOrder.stays {es : List Entry} (h : InOrder es) (path : String) :
    Stays (Location.returned path es) path es := by
  intro e he hsemi
  rw [← h.loc_returned path he,
    Entry.returned_of_ne fun htoken => hsemi (congrArg Token.kind htoken)]

theorem Entry.excesses_returned (e : Entry) : e.returned.excesses = e.excesses := by
  by_cases he : e.token = .newline
  · have hnone : ∀ e : Entry, e.token = .newline → e.excesses = [] := by
      intro e he
      unfold excesses excess?
      rw [he]
      rfl
    rw [hnone e he, hnone e.returned he]
  · rw [returned_of_ne he]

namespace Tokens

def all (ts : Tokens) : List Entry :=
  ts.entries ++ [ts.last]

theorem entry_mem_all (ts : Tokens) (n : Nat) : ts.entry n ∈ ts.all := by
  unfold entry all
  rw [List.getD_eq_getElem?_getD, List.mem_append]
  cases h : ts.entries[n]? with
  | none => exact Or.inr (List.mem_singleton_self _)
  | some e => exact Or.inl (List.mem_of_getElem? h)

theorem inOrder_all (x : Lexer) : InOrder (ofLexer x).all :=
  List.pairwise_append.2 ⟨inOrder x, List.pairwise_singleton _ _, fun e he _ hl =>
    List.mem_singleton.1 hl ▸ (pos_bounds x e he).2⟩

theorem last_returned (ts : Tokens) : ts.last.returned = ts.last := by
  refine Entry.returned_of_ne fun htoken => ?_
  have heof := ts.last_eof
  rw [htoken] at heof
  cases heof

end Tokens

namespace Parser

/-- `s'` has the tokens of `s` with carriage returns among them. -/
structure Returns (s s' : Parser) : Prop where
  entries : s'.tokens.entries = s.tokens.entries.map Entry.returned
  last : s'.tokens.last = s.tokens.last
  path : s'.path = s.path
  log : s'.log.toList = s.log.toList
  inOrder : InOrder s.tokens.all
  first : s.current.token ≠ .newline

variable {s s' : Parser} {n : Nat}

namespace Returns

theorem left (h : Returns s s') : s'.left = s.left := by
  unfold Parser.left
  rw [h.entries, List.length_map]

theorem entry (h : Returns s s') (n : Nat) :
    s'.tokens.entry n = (s.tokens.entry n).returned := by
  have hlast := s.tokens.last_returned
  unfold Tokens.entry
  rw [h.entries, h.last, List.getD_eq_getElem?_getD, List.getD_eq_getElem?_getD,
    List.getElem?_map]
  cases s.tokens.entries[n]? with
  | none => exact hlast.symm
  | some e => rfl

theorem like (h : Returns s s') (n : Nat) :
    Like (Location.returned s.path s.tokens.all) (s.passBy n) (s'.passBy n) := by
  have hentry := h.entry n
  refine ⟨?_, ?_⟩
  · rw [current_passBy, current_passBy, hentry]
    rfl
  · rw [here_passBy, here_passBy, hentry, h.path]
    exact h.inOrder.loc_returned s.path (s.tokens.entry_mem_all n)

theorem here (h : Returns s s') (n : Nat) : (s'.passBy n).here =
    if (s.passBy n).current.token = .newline then
      ⟨(s.passBy n).here.path, (s.passBy n).here.line, (s.passBy n).here.col + 1⟩
    else (s.passBy n).here := by
  rw [here_passBy, here_passBy, current_passBy, h.entry, h.path]
  unfold Entry.returned
  split <;> rfl

theorem log_passBy (h : Returns s s') (hn : n ≤ s.left) :
    (s'.passBy n).log.toList = (s.passBy n).log.toList := by
  have hid : ∀ ds : List Diagnostic, ds.map id = ds := List.map_id
  have hlog : (s'.passBy n).log.toList = [] ++ (s.passBy n).log.toList.map id :=
    Parser.log_passBy hn (h.left ▸ hn) (fun i _ => by rw [h.entry, Entry.excesses_returned, hid])
      (fun i _ => by rw [h.entry, hid]; rfl) (by rw [h.log, hid]; rfl)
  rwa [hid] at hlog

theorem stays (h : Returns s s') :
    Stays (Location.returned s.path s.tokens.all) s.path s.tokens.entries :=
  (stays_append.1 (h.inOrder.stays s.path)).1

/-- The declarations are the same.  So is the error, but for a newline that was found. -/
theorem decls (h : Returns s s') : ∃ n ≤ s.left,
    (∃ ds, Parse.many Parse.decl? s = .ok ds (s.passBy n) ∧
        Parse.many Parse.decl? s' = .ok ds (s'.passBy n)) ∨
      ∃ e, Parse.many Parse.decl? s = .error e (s.passBy n) ∧
        Parse.many Parse.decl? s' = .error e.returned (s'.passBy n) := by
  have hlocal := Parse.local_decls (f := Location.returned s.path s.tokens.all) (s := s)
  have hmirrors : ∀ n, s.Mirrors (Location.returned s.path s.tokens.all) n s' :=
    fun n i _ => h.like i
  cases hd : Parse.many Parse.decl? s with
  | ok ds t =>
    obtain ⟨n, ⟨rfl, hleft⟩, hall⟩ := hlocal.ok hd
    have hds := (Parse.decls_stay h.stays).1 ds hd
    have hd' := hall s' (hmirrors n) (Or.inl (h.like n))
    rw [hds] at hd'
    exact ⟨n, by omega, Or.inl ⟨ds, rfl, hd'⟩⟩
  | error e t =>
    obtain ⟨hblames, n, ⟨rfl, hleft⟩, hall⟩ := hlocal.error hd
    have hd' := hall s' (hmirrors (n + 1))
    have he : e.relocate (Location.returned s.path s.tokens.all) = e.returned := by
      have hfixed := (Parse.decls_stay h.stays).2 e hd
      cases e with
      | expected what found loc =>
        obtain ⟨rfl, rfl⟩ := hblames _ _ _ rfl
        exact congrArg (SyntaxError.expected what _) ((h.like n).here.symm.trans (h.here n))
      | invalidField loc => exact congrArg SyntaxError.invalidField hfixed
    rw [he] at hd'
    exact ⟨n, by omega, Or.inr ⟨e, rfl, hd'⟩⟩

end Returns
end Parser

open Utf8

theorem Delivers.parsers {reads reads' : List Read} {bytes : ByteArray} (h : Delivers reads bytes)
    (h' : Delivers reads' (bytesWithReturns bytes)) (path : String) :
    Parser.Returns (.ofReads path reads) (.ofReads path reads') := by
  have hlexers := h.returns h'
  obtain ⟨hentries, hlast⟩ := Tokens.ofLexer_returned _ _ hlexers
  refine ⟨hentries, hlast, rfl, ?_, Tokens.inOrder_all _, ?_⟩
  · unfold Parser.ofReads
    rw [Parser.log_ofText, Parser.log_ofText, hlexers.next.1.log]
  · have hfirst := Parser.current_ofLexer (s := .ofReads path reads)
      (x := .ofText (.ofReads reads)) rfl (Nat.zero_le _)
    intro htoken
    have hnext : (Lexer.ofText (.ofReads reads)).next.current.token = .newline := by
      rw [← htoken]
      exact congrArg Entry.token hfirst.symm
    cases (Lexer.token_eq_newline_iff.1 hnext).1

/-- Parsers of a text and of it with carriage returns make the same file of it. -/
theorem File.ofReads_of_returns {path : String} {reads reads' : List Read}
    (h : Parser.Returns (.ofReads path reads) (.ofReads path reads')) :
    (File.ofReads path reads').1 = (File.ofReads path reads).1.mapError SyntaxError.returned ∧
      (File.ofReads path reads').2 = (File.ofReads path reads).2 := by
  obtain ⟨n, hn, ⟨ds, hd, hd'⟩ | ⟨e, hd, hd'⟩⟩ := h.decls
  · rw [Parse.ofReads_ok hd, Parse.ofReads_ok hd']
    refine ⟨?_, h.log_passBy hn⟩
    have hfirst : (Parser.ofReads path reads').here = (Parser.ofReads path reads).here :=
      (h.here 0).trans (if_neg h.first)
    have hend : ((Parser.ofReads path reads').passBy n).here =
        ((Parser.ofReads path reads).passBy n).here := by
      obtain ⟨u, hu⟩ := Parse.many_stops Parse.takes_decl? hd
      have heof := Parse.decl?_none hu
      refine (h.here n).trans (if_neg fun htoken => ?_)
      have hkind := congrArg Token.kind htoken
      cases heof.symm.trans hkind
    exact congrArg Except.ok (congrArg₂ (FrontEnd.File.mk none ds) hend hfirst)
  · rw [Parse.ofReads_error hd, Parse.ofReads_error hd']
    exact ⟨rfl, h.log_passBy hn⟩

/-- With a carriage return in front of every newline a text has the same tokens, but the
newlines that are tokens stand one column further right, and the same is reported when each
is returned.  So the file is the same, and so is its error, unless that has found a newline;
then it stands where the newline does. -/
theorem File.ofReads_returns {reads reads' : List Read} {bytes : ByteArray}
    (h : Delivers reads bytes) (h' : Delivers reads' (bytesWithReturns bytes)) (path : String) :
    let x := Lexer.ofText (.ofReads reads)
    let x' := Lexer.ofText (.ofReads reads')
    (∀ n, (x'.nextBy n).current = (x.nextBy n).current.returned ∧
      (x'.nextBy n).log = (x.nextBy n).log) ∧
    (Tokens.ofLexer x').entries = (Tokens.ofLexer x).entries.map Entry.returned ∧
    (Tokens.ofLexer x').last = (Tokens.ofLexer x).last ∧
    (File.ofReads path reads').1 = (File.ofReads path reads).1.mapError SyntaxError.returned ∧
    (File.ofReads path reads').2 = (File.ofReads path reads).2 := by
  intro x x'
  have hlexers := h.returns h'
  obtain ⟨hentries, hlast⟩ := Tokens.ofLexer_returned x x' hlexers
  obtain ⟨hresult, hlog⟩ := File.ofReads_of_returns (h.parsers h' path)
  refine ⟨fun n => ⟨?_, (hlexers.nextBy n).log⟩, hentries, hlast, hresult, hlog⟩
  cases n with
  | zero => exact Lexer.current_ofText_returned hlexers.log
  | succ n =>
    rw [Lexer.nextBy_succ, Lexer.nextBy_succ]
    exact (hlexers.nextBy n).next.2

/-- A numeral with a digit out of place at the end of a line, and a newline where an expression
is asked for. -/
theorem File.ofReads_returns_found :
    let reads := [Read.bytes "f 08\n".toUTF8]
    let reads' := [Read.bytes "f 08\r\n".toUTF8]
    Delivers reads' (bytesWithReturns "f 08\n".toUTF8) ∧
    (File.ofReads "" reads).1 =
      .error (.expected .expression ⟨.semi, "\n"⟩ ⟨"", 1, 5⟩) ∧
    (File.ofReads "" reads').1 =
      .error (.expected .expression ⟨.semi, "\n"⟩ ⟨"", 1, 6⟩) ∧
    (File.ofReads "" reads').2 = (File.ofReads "" reads).2 := by
  intro reads reads'
  have hbytes : bytesWithReturns "f 08\n".toUTF8 = "f 08\r\n".toUTF8 := by decide +kernel
  have h' : Delivers reads' (bytesWithReturns "f 08\n".toUTF8) := hbytes ▸ .single _
  obtain ⟨-, -, -, hresult, hlog⟩ := File.ofReads_returns (.single "f 08\n".toUTF8) h' ""
  have herror : (File.ofReads "" reads).1 =
      .error (.expected .expression ⟨.semi, "\n"⟩ ⟨"", 1, 5⟩) :=
    File.error?_eq_some.1 (by decide +kernel)
  refine ⟨h', herror, ?_, hlog⟩
  rw [hresult, herror]
  rfl

end FrontEnd
