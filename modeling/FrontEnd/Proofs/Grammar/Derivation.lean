import FrontEnd.Grammar.Declaration

/-!
# Derivations

The grammar as a relation between a phrase and the tokens that make it up.  A
`Phrase` is a tree together with the place in the grammar where it is read, so that
one relation covers all productions and one induction reaches every one of them.

The relation says which tokens a tree is read from and in which order, and which
token gives each location.  It says nothing of what may follow, which is a matter of
the parser: a phrase ends where the next token cannot go on with it.
-/

namespace FrontEnd

namespace TokenKind

def isAccepted : TokenKind → Bool
  | parenLeft | parenRight | braceLeft | braceRight | ident | integer | float | typeWord
  | sealWord | semi | colon | assign | minus | arrow | symbol => true
  | _ => false

def beginsArgument : TokenKind → Bool
  | integer | float | ident | parenLeft => true
  | _ => false

def beginsTypeArgument : TokenKind → Bool
  | ident | parenLeft => true
  | _ => false

end TokenKind

namespace Entry

def loc (path : String) (e : Entry) : Location :=
  .ofPosition path e.pos

def name (path : String) (e : Entry) : Name :=
  ⟨e.token.lexeme, e.loc path⟩

def converted {α : Type} (value : String → Except LiteralError α) (path : String) (e : Entry) :
    Parse.Converted α :=
  ((value e.token.lexeme).toOption, e.loc path)

def integer (path : String) (e : Entry) : Parse.Converted Nat :=
  e.converted Literal.integerValue path

def float (path : String) (e : Entry) : Parse.Converted Double :=
  e.converted Literal.floatValue path

abbrev Is (e : Entry) (k : TokenKind) : Prop :=
  e.token.kind = k

def IsOperator (e : Entry) : Prop :=
  e.Is .symbol ∨ e.Is .minus

end Entry

def Separators (es : List Entry) : Prop :=
  ∀ e ∈ es, e.Is .semi

/-- A head applied to arguments, where `loc` is where the head begins.  A call given no
arguments is that call. -/
def Call.applied (fn : Expr) (args : List Expr) (loc : Location) : Call :=
  match fn, args with
  | .call c, [] => c
  | fn, args => ⟨fn, args, false, loc⟩

def Expr.fieldName : Expr → Except SyntaxError Name
  | .name n => .ok n
  | .call ⟨.name n, [], _, _⟩ => .ok n
  | .call ⟨fn, [], _, _⟩ => .error (.invalidField fn.loc)
  | e => .error (.invalidField e.loc)

theorem Ty.fieldNames_app (c : Call) :
    (Ty.app c).fieldNames = (c.fn :: c.args).mapM Expr.fieldName := by
  unfold fieldNames
  congr 1

theorem map_eq_of_mapM_eq_ok {α β ε : Type} {f : α → Except ε β} {as : List α} :
    ∀ {bs : List β}, as.mapM f = .ok bs → as.map f = bs.map .ok := by
  induction as with
  | nil =>
    intro bs h
    cases h
    rfl
  | cons a as ih =>
    intro bs h
    rw [List.mapM_cons] at h
    cases ha : f a with
    | error e => rw [ha] at h; cases h
    | ok b =>
      cases has : as.mapM f with
      | error e => rw [ha, has] at h; cases h
      | ok cs =>
        rw [ha, has] at h
        cases h
        rw [List.map_cons, ih has, ha]
        rfl

theorem exists_of_mapM_eq_error {α β ε : Type} {f : α → Except ε β} {as : List α} {e : ε}
    (h : as.mapM f = .error e) : ∃ a ∈ as, f a = .error e := by
  induction as with
  | nil => cases h
  | cons a as ih =>
    rw [List.mapM_cons] at h
    cases ha : f a with
    | error e' =>
      rw [ha] at h
      cases h
      exact ⟨a, List.mem_cons_self, ha⟩
    | ok b =>
      cases has : as.mapM f with
      | error e' =>
        rw [ha, has] at h
        cases h
        obtain ⟨c, hc, he⟩ := ih has
        exact ⟨c, List.mem_cons_of_mem _ hc, he⟩
      | ok bs =>
        rw [ha, has] at h
        cases h

/-- Only an application has the names of a context, one for each of its parts. -/
theorem Ty.fieldNames_eq_ok {t : Ty} {ns : List Name} (h : t.fieldNames = .ok ns) :
    ∃ c, t = .app c ∧ (c.fn :: c.args).map Expr.fieldName = ns.map .ok := by
  cases t with
  | func f => cases h
  | app c =>
    rw [fieldNames_app] at h
    exact ⟨c, rfl, map_eq_of_mapM_eq_ok h⟩

theorem Ty.fieldNames_ne_nil {t : Ty} {ns : List Name} (h : t.fieldNames = .ok ns) : ns ≠ [] := by
  obtain ⟨c, -, hc⟩ := fieldNames_eq_ok h
  rintro rfl
  cases hc

theorem Ty.fieldNames_ofNames (n : Name) (ns : List Name) (loc : Location) :
    (Ty.app ⟨.name n, ns.map fun n => .call n.toCall, false, loc⟩).fieldNames = .ok (n :: ns) := by
  have hns : (ns.map fun n => Expr.call n.toCall).mapM Expr.fieldName = .ok ns := by
    induction ns with
    | nil => rfl
    | cons n ns ih =>
      rw [List.map_cons, List.mapM_cons, ih]
      rfl
  rw [fieldNames_app, List.mapM_cons, hns]
  rfl

/-- A tree and the place in the grammar where it is read. -/
inductive Phrase where
  | expr (x : Expr)
  /-- What a call begins with. -/
  | head (x : Expr)
  | argument (x : Expr)
  | arguments (xs : List Expr)
  | call (c : Call)
  | type (t : Ty)
  /-- A type that may stand before an arrow. -/
  | atom (t : Ty)
  /-- A name and the types it is applied to. -/
  | typeCall (c : Call)
  | typeArgument (x : Expr)
  | typeArguments (xs : List Expr)
  | pattern (p : Pattern)
  | patterns (ps : List Pattern)
  | declName (n : Name)
  | names (ns : List Name)
  | signature (s : Signature)
  /-- The signatures of a block, with separators before, between and after them. -/
  | members (ss : List Signature)
  /-- A block from its name on, for the location of the word before it. -/
  | block (b : Block)
  | decl (d : Decl)
  /-- The declarations of a file, with separators before, between and after them. -/
  | decls (ds : List Decl)

/-- The tokens that a phrase is read from, in the file `path`. -/
inductive Derives (path : String) : Phrase → List Entry → Prop where
  | integer {e : Entry} (h : e.Is .integer) :
    Derives path (.expr (.ofInteger (e.integer path))) [e]
  | float {e : Entry} (h : e.Is .float) :
    Derives path (.expr (.ofFloat (e.float path))) [e]
  | application {c : Call} {es : List Entry} (h : Derives path (.call c) es) :
    Derives path (.expr (.call c)) es
  | headName {e : Entry} (h : e.Is .ident) :
    Derives path (.head (.name (e.name path))) [e]
  | headOperator {l o r : Entry} (hl : l.Is .parenLeft) (ho : o.IsOperator)
      (hr : r.Is .parenRight) :
    Derives path (.head (.name (o.name path))) [l, o, r]
  | headNested {l r : Entry} {x : Expr} {es : List Entry} (hl : l.Is .parenLeft)
      (h : Derives path (.expr x) es) (hr : r.Is .parenRight) :
    Derives path (.head x) (l :: (es ++ [r]))
  | argumentInteger {e : Entry} (h : e.Is .integer) :
    Derives path (.argument (.ofInteger (e.integer path))) [e]
  | argumentFloat {e : Entry} (h : e.Is .float) :
    Derives path (.argument (.ofFloat (e.float path))) [e]
  | argumentName {e : Entry} (h : e.Is .ident) :
    Derives path (.argument (.call (e.name path).toCall)) [e]
  | argumentOperator {l o r : Entry} (hl : l.Is .parenLeft) (ho : o.IsOperator)
      (hr : r.Is .parenRight) :
    Derives path (.argument (.call (o.name path).toCall)) [l, o, r]
  | argumentNested {l r : Entry} {x : Expr} {es : List Entry} (hl : l.Is .parenLeft)
      (h : Derives path (.expr x) es) (hr : r.Is .parenRight) :
    Derives path (.argument x) (l :: (es ++ [r]))
  | noArguments : Derives path (.arguments []) []
  | moreArguments {x : Expr} {xs : List Expr} {es fs : List Entry}
      (h : Derives path (.argument x) es) (hs : Derives path (.arguments xs) fs) :
    Derives path (.arguments (x :: xs)) (es ++ fs)
  | call {e : Entry} {fn : Expr} {args : List Expr} {es fs : List Entry}
      (h : Derives path (.head fn) (e :: es)) (hs : Derives path (.arguments args) fs) :
    Derives path (.call (.applied fn args (e.loc path))) (e :: (es ++ fs))
  | typeCall {e : Entry} {args : List Expr} {es : List Entry} (h : e.Is .ident)
      (hs : Derives path (.typeArguments args) es) :
    Derives path (.typeCall ⟨.name (e.name path), args, false, e.loc path⟩) (e :: es)
  | typeArgumentName {e : Entry} (h : e.Is .ident) :
    Derives path (.typeArgument (.call (e.name path).toCall)) [e]
  | typeArgumentNested {l r : Entry} {t : Ty} {es : List Entry} (hl : l.Is .parenLeft)
      (h : Derives path (.type t) es) (hr : r.Is .parenRight) :
    Derives path (.typeArgument t.toExpr) (l :: (es ++ [r]))
  | noTypeArguments : Derives path (.typeArguments []) []
  | moreTypeArguments {x : Expr} {xs : List Expr} {es fs : List Entry}
      (h : Derives path (.typeArgument x) es) (hs : Derives path (.typeArguments xs) fs) :
    Derives path (.typeArguments (x :: xs)) (es ++ fs)
  | atomCall {c : Call} {es : List Entry} (h : Derives path (.typeCall c) es) :
    Derives path (.atom (.app c)) es
  | atomNested {l r : Entry} {t : Ty} {es : List Entry} (hl : l.Is .parenLeft)
      (h : Derives path (.type t) es) (hr : r.Is .parenRight) :
    Derives path (.atom t) (l :: (es ++ [r]))
  | typeAtom {t : Ty} {es : List Entry} (h : Derives path (.atom t) es) :
    Derives path (.type t) es
  | arrow {e a : Entry} {t u : Ty} {es fs : List Entry} (ht : Derives path (.atom t) (e :: es))
      (ha : a.Is .arrow) (hu : Derives path (.type u) fs) :
    Derives path (.type (.func ⟨[], [t, u], e.loc path⟩)) (e :: (es ++ a :: fs))
  | context {l c r a : Entry} {inner shared result : Ty} {ns : List Name}
      {es fs gs : List Entry} (hl : l.Is .parenLeft) (hi : Derives path (.type inner) es)
      (hn : inner.fieldNames = .ok ns) (hc : c.Is .colon) (hs : Derives path (.type shared) fs)
      (hr : r.Is .parenRight) (ha : a.token = ⟨.symbol, "=>"⟩)
      (hu : Derives path (.type result) gs) :
    Derives path (.type (result.withContext ns shared (l.loc path)))
      (l :: (es ++ c :: (fs ++ r :: a :: gs)))
  | patternName {e : Entry} (h : e.Is .ident) :
    Derives path (.pattern (.name (e.name path))) [e]
  | patternCall {l r : Entry} {c : Call} {es : List Entry} (hl : l.Is .parenLeft)
      (h : Derives path (.call c) es) (hr : r.Is .parenRight) :
    Derives path (.pattern (.call c)) (l :: (es ++ [r]))
  | patternInteger {e : Entry} (h : e.Is .integer) :
    Derives path (.pattern (.ofInteger (e.integer path))) [e]
  | patternFloat {e : Entry} (h : e.Is .float) :
    Derives path (.pattern (.ofFloat (e.float path))) [e]
  | noPatterns : Derives path (.patterns []) []
  | morePatterns {p : Pattern} {ps : List Pattern} {es fs : List Entry}
      (h : Derives path (.pattern p) es) (hs : Derives path (.patterns ps) fs) :
    Derives path (.patterns (p :: ps)) (es ++ fs)
  | declIdent {e : Entry} (h : e.Is .ident) : Derives path (.declName (e.name path)) [e]
  | declOperator {l o r : Entry} (hl : l.Is .parenLeft) (ho : o.IsOperator)
      (hr : r.Is .parenRight) :
    Derives path (.declName (o.name path)) [l, o, r]
  | noNames : Derives path (.names []) []
  | moreNames {e : Entry} {ns : List Name} {es : List Entry} (h : e.Is .ident)
      (hs : Derives path (.names ns) es) :
    Derives path (.names (e.name path :: ns)) (e :: es)
  | signature {c : Entry} {n : Name} {t : Ty} {es fs : List Entry}
      (hn : Derives path (.declName n) es) (hc : c.Is .colon) (ht : Derives path (.type t) fs) :
    Derives path (.signature ⟨n, t, n.loc⟩) (es ++ c :: fs)
  | noMembers {es : List Entry} (h : Separators es) : Derives path (.members []) es
  | moreMembers {s : Signature} {ss : List Signature} {es fs gs : List Entry}
      (h : Separators es) (hs : Derives path (.signature s) fs)
      (hss : Derives path (.members ss) gs) :
    Derives path (.members (s :: ss)) (es ++ (fs ++ gs))
  | block {e l r : Entry} {ns : List Name} {ss : List Signature} {loc : Location}
      {es fs : List Entry} (h : e.Is .ident) (hns : Derives path (.names ns) es)
      (hl : l.Is .braceLeft) (hss : Derives path (.members ss) fs) (hr : r.Is .braceRight) :
    Derives path (.block ⟨e.name path, ns, ss, loc⟩) (e :: (es ++ l :: (fs ++ [r])))
  | declSignature {s : Signature} {es : List Entry} (h : Derives path (.signature s) es) :
    Derives path (.decl (.signature s)) es
  | function {a : Entry} {n : Name} {ps : List Pattern} {x : Expr} {es fs gs : List Entry}
      (hn : Derives path (.declName n) es) (hp : Derives path (.patterns ps) fs)
      (ha : a.Is .assign) (hx : Derives path (.expr x) gs) :
    Derives path (.decl (.function ⟨n, none, ps, some x, n.loc⟩)) (es ++ (fs ++ a :: gs))
  | enumeration {w : Entry} {b : Block} {es : List Entry} (hw : w.Is .typeWord)
      (h : Derives path (.block b) es) (hb : b.loc = w.loc path) :
    Derives path (.decl (.enumeration b)) (w :: es)
  | sealed {w : Entry} {b : Block} {es : List Entry} (hw : w.Is .sealWord)
      (h : Derives path (.block b) es) (hb : b.loc = w.loc path) :
    Derives path (.decl (.sealed b)) (w :: es)
  | noDecls {es : List Entry} (h : Separators es) : Derives path (.decls []) es
  | moreDecls {d : Decl} {ds : List Decl} {es fs gs : List Entry} (h : Separators es)
      (hd : Derives path (.decl d) fs) (hds : Derives path (.decls ds) gs) :
    Derives path (.decls (d :: ds)) (es ++ (fs ++ gs))

namespace Derives

variable {path : String}

theorem isAccepted_separators {es : List Entry} (h : Separators es) :
    ∀ e ∈ es, e.token.kind.isAccepted = true := by
  intro e he
  rw [h e he]
  rfl

theorem isAccepted_operator {e : Entry} (h : e.IsOperator) :
    e.token.kind.isAccepted = true := by
  rcases h with h | h <;> rw [h] <;> rfl

theorem isAccepted {ph : Phrase} {es : List Entry} (h : Derives path ph es) :
    ∀ e ∈ es, e.token.kind.isAccepted = true := by
  induction h with
  | headOperator hl ho hr | argumentOperator hl ho hr | declOperator hl ho hr =>
    have ho' := isAccepted_operator ho
    simp only [List.forall_mem_cons, hl, hr]
    exact ⟨rfl, ho', rfl, List.forall_mem_nil _⟩
  | noMembers h | noDecls h => exact isAccepted_separators h
  | moreMembers h hs hss ihs ihss =>
    simp only [List.forall_mem_append]
    exact ⟨isAccepted_separators h, ihs, ihss⟩
  | moreDecls h hd hds ihd ihds =>
    simp only [List.forall_mem_append]
    exact ⟨isAccepted_separators h, ihd, ihds⟩
  | _ => simp_all [TokenKind.isAccepted, or_imp, forall_and]

theorem not_eof {ph : Phrase} {es : List Entry} (h : Derives path ph es) :
    ∀ e ∈ es, ¬ e.Is .eof := by
  intro e he hk
  have ha := h.isAccepted e he
  rw [hk] at ha
  cases ha

end Derives

def Phrase.Begins : Phrase → List Entry → Prop
  | .expr _, es | .argument _, es | .pattern _, es =>
    ∃ e fs, es = e :: fs ∧ e.token.kind.beginsArgument = true
  | .head _, es | .call _, es | .type _, es | .atom _, es | .typeCall _, es
  | .typeArgument _, es | .declName _, es =>
    ∃ e fs, es = e :: fs ∧ e.token.kind.beginsTypeArgument = true
  | _, _ => True

theorem TokenKind.beginsArgument_of {k : TokenKind} (h : k.beginsTypeArgument = true) :
    k.beginsArgument = true := by
  cases k <;> first | rfl | cases h

theorem Derives.begins {path : String} {ph : Phrase} {es : List Entry} (h : Derives path ph es) :
    ph.Begins es := by
  induction h with
  | application h ih =>
    obtain ⟨e, fs, he, hk⟩ := ih
    exact ⟨e, fs, he, TokenKind.beginsArgument_of hk⟩
  | integer h | float h | argumentInteger h | argumentFloat h | patternInteger h | patternFloat h
  | headName h | argumentName h | typeArgumentName h | patternName h | declIdent h
  | typeCall h hs ihs => exact ⟨_, _, rfl, by rw [h]; rfl⟩
  | headOperator hl ho hr | argumentOperator hl ho hr | declOperator hl ho hr
  | headNested hl h hr ih | argumentNested hl h hr ih | typeArgumentNested hl h hr ih
  | atomNested hl h hr ih | patternCall hl h hr ih
  | context hl hi hn hc hs hr ha hu ihi ihs ihu => exact ⟨_, _, rfl, by rw [hl]; rfl⟩
  | atomCall h ih | typeAtom h ih => exact ih
  | call h hs ih ihs | arrow h ha hu ih ihu =>
    obtain ⟨e, fs, he, hk⟩ := ih
    rw [List.cons.inj he |>.1]
    exact ⟨_, _, rfl, hk⟩
  | _ => trivial

end FrontEnd
