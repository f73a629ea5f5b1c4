import FrontEnd.Proofs.Grammar.Leaves
import FrontEnd.Proofs.Grammar.Soundness

/-!
# Tokens accounted for

The tokens of an accepted text, less the parentheses and separators, are the leaves of
its tree.  `leaves_file` says so of whole files; it is proved for every phrase of the
grammar at once, in `Derives.accounts`.
-/

namespace FrontEnd

/-! ## Tokens -/

namespace Entry

theorem leaves_append (es fs : List Entry) : leaves (es ++ fs) = leaves es ++ leaves fs :=
  List.filterMap_append

theorem leaves_cons {e : Entry} {l : Leaf} (h : e.token.leaf? = some l) (es : List Entry) :
    leaves (e :: es) = l :: leaves es :=
  List.filterMap_cons_some h

theorem leaves_skip {e : Entry} (h : e.token.leaf? = none) (es : List Entry) :
    leaves (e :: es) = leaves es :=
  List.filterMap_cons_none h

theorem leaf?_integer {e : Entry} (h : e.Is .integer) (path : String) :
    e.token.leaf? = some (.ofInteger (e.integer path).1) := by
  unfold Token.leaf?
  rw [h]
  rfl

theorem leaf?_float {e : Entry} (h : e.Is .float) (path : String) :
    e.token.leaf? = some (.ofFloat (e.float path).1) := by
  unfold Token.leaf?
  rw [h]
  rfl

theorem leaf?_parenLeft {e : Entry} (h : e.Is .parenLeft) : e.token.leaf? = none := by
  unfold Token.leaf?
  rw [h]

theorem leaf?_parenRight {e : Entry} (h : e.Is .parenRight) : e.token.leaf? = none := by
  unfold Token.leaf?
  rw [h]

theorem leaf?_mark {e : Entry} {k : TokenKind} (he : e.token.Proper) (h : e.Is k)
    (hs : k.spelling?.isSome = true) : e.token.leaf? = some (.mark k) := by
  obtain ⟨s, hk⟩ := Option.isSome_iff_exists.1 hs
  have hl : e.token.lexeme = s := he.spelled s (by rw [h]; exact hk)
  have ht : e.token = ⟨k, k.spelling?.getD ""⟩ := by
    rw [hk, ← h, ← hl]
    rfl
  rw [ht]
  cases k <;> first | rfl | cases hk

theorem leaf?_name {e : Entry} (he : e.token.Proper) (h : e.Is .ident ∨ e.IsOperator)
    (path : String) : e.token.leaf? = some (e.name path).leaf := by
  have hk : e.Is .ident ∨ e.Is .symbol := by
    rcases h with h | h | h
    · exact Or.inl h
    · exact Or.inr h
    · exact absurd h he.ne_minus
  have ht : e.token = ⟨.ofName e.token.lexeme, e.token.lexeme⟩ := by
    rw [he.named hk]
  have hl : e.token.leaf? = some (.token e.token) := by
    unfold Token.leaf?
    rcases hk with hk | hk <;> rw [hk]
  rw [hl]
  exact congrArg (fun t => some (Leaf.token t)) ht

end Entry

/-- The leaves of some tokens are `ls`, if each token is spelled as its kind says. -/
def Accounts (es : List Entry) (ls : List Leaf) : Prop :=
  (∀ e ∈ es, e.token.Proper) → Entry.leaves es = ls

namespace Accounts

variable {es fs : List Entry} {e l r : Entry} {ls ms : List Leaf}

theorem append (h : Accounts es ls) (h' : Accounts fs ms) : Accounts (es ++ fs) (ls ++ ms) := by
  intro hp
  obtain ⟨hes, hfs⟩ := List.forall_mem_append.1 hp
  rw [Entry.leaves_append, h hes, h' hfs]

theorem cons {l : Leaf} (he : e.token.Proper → e.token.leaf? = some l) (h : Accounts es ls) :
    Accounts (e :: es) (l :: ls) := by
  intro hp
  obtain ⟨hep, hes⟩ := List.forall_mem_cons.1 hp
  rw [Entry.leaves_cons (he hep), h hes]

theorem skip (he : e.token.leaf? = none) (h : Accounts es ls) : Accounts (e :: es) ls := by
  intro hp
  rw [Entry.leaves_skip he, h (List.forall_mem_cons.1 hp).2]

theorem nil : Accounts [] [] := fun _ => rfl

theorem mark {k : TokenKind} (he : e.Is k) (hk : k.spelling?.isSome = true)
    (h : Accounts es ls) : Accounts (e :: es) (.mark k :: ls) :=
  cons (fun hp => Entry.leaf?_mark hp he hk) h

theorem name (path : String) (he : e.Is .ident) (h : Accounts es ls) :
    Accounts (e :: es) ((e.name path).leaf :: ls) :=
  cons (fun hp => Entry.leaf?_name hp (Or.inl he) path) h

theorem nested (hl : l.Is .parenLeft) (hr : r.Is .parenRight) (h : Accounts es ls) :
    Accounts (l :: (es ++ [r])) ls := by
  have hlast : Accounts [r] [] := skip (Entry.leaf?_parenRight hr) nil
  have hall := skip (Entry.leaf?_parenLeft hl) (h.append hlast)
  rwa [List.append_nil] at hall

theorem operator (path : String) {o : Entry} (hl : l.Is .parenLeft) (ho : o.IsOperator)
    (hr : r.Is .parenRight) : Accounts [l, o, r] [(o.name path).leaf] :=
  nested hl hr (cons (fun hp => Entry.leaf?_name hp (Or.inr ho) path) nil)

theorem separators (h : Separators es) : Accounts es [] := by
  intro _
  refine List.filterMap_eq_nil_iff.2 fun e he => ?_
  unfold Token.leaf?
  rw [h e he]

theorem behind (h : Separators es) (hs : Accounts fs ls) : Accounts (es ++ fs) ls :=
  (separators h).append hs

end Accounts

namespace Derives

variable {path : String}

theorem accounts_integer {e : Entry} (h : e.Is .integer) :
    Accounts [e] [.ofInteger (e.integer path).1] :=
  .cons (fun _ => Entry.leaf?_integer h path) .nil

theorem accounts_float {e : Entry} (h : e.Is .float) :
    Accounts [e] [.ofFloat (e.float path).1] :=
  .cons (fun _ => Entry.leaf?_float h path) .nil

theorem accounts_arrow {a : Entry} {t u : Ty} {es fs : List Entry} (loc : Location)
    (ha : a.Is .arrow) (ht : Accounts es t.leaves) (hu : Accounts fs u.leaves) :
    Accounts (es ++ a :: fs) (Ty.func ⟨[], [t, u], loc⟩).leaves := by
  rw [Ty.leaves, FuncTy.leaves, Field.contextLeaves, Ty.arrowLeaves, Ty.arrowLeaves]
  exact ht.append (.mark ha rfl hu)

theorem accounts_context {l c r a : Entry} {inner shared result : Ty} {ns : List Name}
    {es fs gs : List Entry} (loc : Location) (hl : l.Is .parenLeft)
    (hn : inner.fieldNames = .ok ns) (hc : c.Is .colon) (hr : r.Is .parenRight)
    (ha : a.token = ⟨.symbol, "=>"⟩) (hi : Accounts es inner.leaves)
    (hs : Accounts fs shared.leaves) (hu : Accounts gs result.leaves) :
    Accounts (l :: (es ++ c :: (fs ++ r :: a :: gs)))
      (result.withContext ns shared loc).leaves := by
  obtain ⟨hns, hinner⟩ := Ty.leaves_of_fieldNames hn
  have ha' : a.token.leaf? = some .doubleArrow := by
    unfold Token.leaf?
    rw [ha]
    rfl
  rw [Ty.leaves_withContext result shared hns loc]
  rw [hinner] at hi
  exact .skip (Entry.leaf?_parenLeft hl) (hi.append (.mark hc rfl
    (hs.append (.skip (Entry.leaf?_parenRight hr) (.cons (fun _ => ha') hu)))))

theorem accounts_block {e l r : Entry} {ns : List Name} {ss : List Signature} {loc : Location}
    {es fs : List Entry} (h : e.Is .ident) (hl : l.Is .braceLeft) (hr : r.Is .braceRight)
    (hns : Accounts es (ns.map Name.leaf)) (hss : Accounts fs (ss.flatMap Signature.leaves)) :
    Accounts (e :: (es ++ l :: (fs ++ [r]))) (Block.mk (e.name path) ns ss loc).leaves :=
  .name path h (hns.append (.mark hl rfl (hss.append (.mark hr rfl .nil))))

theorem accounts_function {a : Entry} {n : Name} {ps : List Pattern} {x : Expr}
    {es fs gs : List Entry} (ha : a.Is .assign) (hn : Accounts es [n.leaf])
    (hp : Accounts fs (ps.flatMap Pattern.leaves)) (hx : Accounts gs x.leaves) :
    Accounts (es ++ (fs ++ a :: gs)) (Function.mk n none ps (some x) n.loc).leaves := by
  have hall := hn.append (hp.append (.mark ha rfl hx))
  simpa [Function.leaves] using hall

/-- The leaves of a phrase are those of its tokens. -/
theorem accounts {ph : Phrase} {es : List Entry} (h : Derives path ph es) :
    Accounts es ph.leaves := by
  induction h with
  | integer h | argumentInteger h =>
    rw [Phrase.leaves, Expr.leaves_ofInteger]
    exact accounts_integer h
  | float h | argumentFloat h =>
    rw [Phrase.leaves, Expr.leaves_ofFloat]
    exact accounts_float h
  | patternInteger h =>
    rw [Phrase.leaves, Pattern.leaves_ofInteger]
    exact accounts_integer h
  | patternFloat h =>
    rw [Phrase.leaves, Pattern.leaves_ofFloat]
    exact accounts_float h
  | headName h | patternName h | declIdent h => exact .name path h .nil
  | argumentName h | typeArgumentName h =>
    rw [Phrase.leaves, Name.leaves_toCall]
    exact .name path h .nil
  | headOperator hl ho hr | declOperator hl ho hr => exact .operator path hl ho hr
  | argumentOperator hl ho hr =>
    rw [Phrase.leaves, Name.leaves_toCall]
    exact .operator path hl ho hr
  | headNested hl h hr ih | argumentNested hl h hr ih | atomNested hl h hr ih
  | patternCall hl h hr ih => exact .nested hl hr ih
  | typeArgumentNested hl h hr ih =>
    rw [Phrase.leaves, Ty.leaves_toExpr]
    exact .nested hl hr ih
  | application h ih | atomCall h ih | typeAtom h ih | declSignature h ih => exact ih
  | noArguments | noTypeArguments | noPatterns | noNames => exact .nil
  | moreArguments h hs ih ihs | moreTypeArguments h hs ih ihs | morePatterns h hs ih ihs =>
    exact ih.append ihs
  | call h hs ih ihs =>
    rw [Phrase.leaves, Call.leaves_applied]
    exact ih.append ihs
  | typeCall h hs ihs | moreNames h hs ihs => exact .name path h ihs
  | @arrow e _ _ _ _ _ ht ha hu iht ihu => exact accounts_arrow (e.loc path) ha iht ihu
  | context hl hi hn hc hs hr ha hu ihi ihs ihu =>
    exact accounts_context _ hl hn hc hr ha ihi ihs ihu
  | signature hn hc ht ihn iht => exact ihn.append (.mark hc rfl iht)
  | noMembers h | noDecls h => exact .separators h
  | moreMembers h hs hss ih ihs | moreDecls h hs hss ih ihs => exact .behind h (ih.append ihs)
  | block h hns hl hss hr ihns ihss => exact accounts_block h hl hr ihns ihss
  | function hn hps ha hx ihn ihp ihx => exact accounts_function ha ihn ihp ihx
  | enumeration hw h hb ih | sealed hw h hb ih => exact .mark hw rfl ih

end Derives

def Decl.isDefinition : Decl → Bool
  | .function f => f.body.isSome
  | _ => false

/-- Whether a declaration is one that the grammar yields. -/
def Decl.isWhole : Decl → Bool
  | .signature _ | .enumeration _ | .sealed _ => true
  | d => d.isDefinition

def Phrase.declarations : Phrase → List Decl
  | decl d => [d]
  | decls ds => ds
  | _ => []

namespace Derives

variable {path : String}

theorem countP_separators {es : List Entry} (h : Separators es) :
    es.countP (·.token.kind = .assign) = 0 := by
  refine List.countP_eq_zero.2 fun e he => ?_
  rw [h e he]
  decide

theorem countP_operator {e : Entry} (h : e.IsOperator) : e.token.kind ≠ .assign := by
  rcases h with h | h <;> rw [h] <;> decide

/-- A definition takes one sign of equality, and nothing else takes any. -/
theorem countP_assign {ph : Phrase} {es : List Entry} (h : Derives path ph es) :
    es.countP (·.token.kind = .assign) = ph.declarations.countP Decl.isDefinition := by
  induction h with
  | headOperator hl ho hr | argumentOperator hl ho hr | declOperator hl ho hr =>
    simp [hl, hr, countP_operator ho, Phrase.declarations]
  | noMembers h | noDecls h => exact countP_separators h
  | moreMembers h hs hss ihs ihss =>
    simp [countP_separators h, ihs, ihss, Phrase.declarations]
  | @moreDecls d ds _ _ _ h hd hds ihd ihds =>
    rw [List.countP_append, List.countP_append, countP_separators h, ihd, ihds, Nat.zero_add]
    show _ = ([d] ++ ds).countP Decl.isDefinition
    rw [List.countP_append]
    rfl
  | declSignature h ih => exact ih
  | function hn hp ha hx ihn ihp ihx =>
    simp only [List.countP_append, List.countP_cons, ihn, ihp, ihx, ha]
    rfl
  | enumeration hw h hb ih | sealed hw h hb ih =>
    rw [List.countP_cons_of_neg (by simp [hw]), ih]
    rfl
  | _ => simp_all [Phrase.declarations]

theorem isWhole {ph : Phrase} {es : List Entry} (h : Derives path ph es) :
    ∀ d ∈ ph.declarations, d.isWhole = true := by
  induction h with
  | moreDecls h hd hds ihd ihds =>
    intro d hm
    rcases List.mem_cons.1 hm with rfl | hm
    · exact ihd d List.mem_cons_self
    · exact ihds d hm
  | _ => simp [Phrase.declarations, Decl.isWhole, Decl.isDefinition]

end Derives

/-! ## Files -/

/-- A file that is accepted was read from all tokens of its text, none more and none
less, and lies between the first of them and the end. -/
theorem file_ofReads {path : String} {reads : List Read} {f : File} {log : List Diagnostic}
    (h : File.ofReads path reads = (.ok f, log)) :
    Derives path (.decls f.decls) (Tokens.ofText (.ofReads reads)).entries ∧
    f = ⟨none, f.decls, (Tokens.ofText (.ofReads reads)).last.loc path,
      (Tokens.ofText (.ofReads reads)).current.loc path⟩ := by
  unfold File.ofReads at h
  cases hf : Parse.file.run (.ofReads path reads) with
  | error e t => rw [hf] at h; cases h
  | ok g t =>
    rw [hf] at h
    cases h
    obtain ⟨es, hp, hd, heof, hfile⟩ := Parse.yields_file hf
    obtain ⟨hes, hlast⟩ := hp.ended (Tokens.kind_ne_eof _) heof
    have hend : t.here = (Tokens.ofText (.ofReads reads)).last.loc path := by
      unfold Parser.here
      rw [hlast, hp.path]
      rfl
    rw [hend] at hfile
    exact ⟨hes ▸ hd, hfile⟩

/-- The tokens of an accepted file are those of its declarations. -/
theorem derives_file {path : String} {reads : List Read} {f : File} {log : List Diagnostic}
    (h : File.ofReads path reads = (.ok f, log)) :
    Derives path (.decls f.decls) (Tokens.ofText (.ofReads reads)).entries :=
  (file_ofReads h).1

/-- Nothing of an accepted text is lost in the tree and nothing is in the tree that was
not written. -/
theorem leaves_file {path : String} {reads : List Read} {f : File} {log : List Diagnostic}
    (h : File.ofReads path reads = (.ok f, log)) :
    Entry.leaves (Tokens.ofText (.ofReads reads)).entries = f.leaves ∧
    (∀ d ∈ f.decls, d.isWhole = true) ∧
    (Tokens.ofText (.ofReads reads)).entries.countP (·.token.kind = .assign) =
      f.decls.countP Decl.isDefinition ∧
    ∀ e ∈ (Tokens.ofText (.ofReads reads)).entries,
      ¬ e.Is .letWord ∧ ¬ e.Is .quote ∧ ¬ e.Is .doubleQuote ∧ ¬ e.Is .complex := by
  have hd := derives_file h
  refine ⟨hd.accounts (Tokens.proper _), hd.isWhole, hd.countP_assign, fun e he => ?_⟩
  have ha := hd.isAccepted e he
  refine ⟨?_, ?_, ?_, ?_⟩ <;>
  · intro hk
    rw [hk] at ha
    cases ha

theorem leaves_file_context : ∃ f log,
    File.ofReads "" [.bytes "of : (k : Key) => k -> M\nof x = (+) (x) 0x10".toUTF8] = (.ok f, log) ∧
    f.decls.length = 2 ∧
    Entry.leaves (Tokens.ofText (.ofReads
      [.bytes "of : (k : Key) => k -> M\nof x = (+) (x) 0x10".toUTF8])).entries = f.leaves := by
  have hok : (File.ofReads "" [.bytes
      "of : (k : Key) => k -> M\nof x = (+) (x) 0x10".toUTF8]).1.toOption.map (·.decls.length) =
      some 2 := by
    decide +kernel
  cases hf : File.ofReads "" [.bytes "of : (k : Key) => k -> M\nof x = (+) (x) 0x10".toUTF8] with
  | mk result log =>
    rw [hf] at hok
    cases result with
    | error e => cases hok
    | ok f => exact ⟨f, log, rfl, Option.some.inj hok, (leaves_file hf).1⟩

end FrontEnd
