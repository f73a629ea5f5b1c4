import FrontEnd.Proofs.Grammar.Calls
import FrontEnd.Proofs.Tree.Readability

/-!
# Texts of parsed trees

The text of a tree that was parsed says all of the tree but its locations, and of an expression
all but the calls without arguments.  The trees that the grammar makes of scanned tokens are
among those that are told by their text: their names are spelled like names, their numbers are
finite, and the fields of their contexts stand in groups.
-/

namespace FrontEnd

open Surface (away)

/-! ## Literals -/

theorem Literal.isFinite_finite {x y : Double} (h : finite x = .ok y) : y.isFinite = true := by
  unfold finite at h
  split at h
  · next hfin =>
    cases h
    exact hfin
  · cases h

/-- No literal has the value infinity. -/
theorem Literal.isFinite_floatValue {lexeme : String} {x : Double}
    (h : floatValue lexeme = .ok x) : x.isFinite = true := by
  unfold floatValue at h
  split at h
  · unfold hexFloatValue at h
    split at h
    · cases h
    dsimp only at h
    split at h
    · cases h
    · split at h
      · cases h
        decide
      · cases h
    split at h
    · cases h
    split at h
    · exact isFinite_finite h
    · cases h
  · unfold decimalFloatValue at h
    split at h
    · cases h
    · exact isFinite_finite h

theorem Expr.compact_ofInteger (v : Parse.Converted Nat) : (ofInteger v).collapse.Compact := by
  rcases v with ⟨_ | v, loc⟩
  · exact .leaf .bad
  · exact .leaf .integer

theorem Expr.compact_ofFloat (e : Entry) (path : String) :
    (ofFloat (e.float path)).collapse.Compact := by
  cases hv : Literal.floatValue e.token.lexeme with
  | error err =>
    have hbad : e.float path = (none, e.loc path) := by
      rw [Entry.float, Entry.converted, hv]
      rfl
    rw [hbad]
    exact .leaf .bad
  | ok x =>
    have hvalue : e.float path = (some x, e.loc path) := by
      rw [Entry.float, Entry.converted, hv]
      rfl
    rw [hvalue]
    exact .leaf (.float (Literal.isFinite_floatValue hv))

/-! ## Contexts -/

theorem Ty.Printable.reference {n : Name} (hn : n.IsIdent) (loc : Location) :
    (Ty.app ⟨.name n, [], false, loc⟩).Printable :=
  .app hn (List.forall_mem_nil _)

theorem Ty.Printable.isIdent_fieldName {t : Ty} (h : t.Printable) {n : Name}
    (hn : t.toExpr.fieldName = .ok n) : n.IsIdent := by
  cases h with
  | func hnames hgs hne hts => cases hn
  | @app m ts loc hm hts =>
    cases ts with
    | nil =>
      cases hn
      exact hm
    | cons t ts => cases hn

theorem Ty.Printable.isIdent_fieldNames {t : Ty} (h : t.Printable) {ns : List Name}
    (hn : t.fieldNames = .ok ns) : ∀ n ∈ ns, n.IsIdent := by
  obtain ⟨c, rfl, hc⟩ := fieldNames_eq_ok hn
  intro n hmem
  have hok : Except.ok n ∈ (c.fn :: c.args).map Expr.fieldName := by
    rw [hc]
    exact List.mem_map_of_mem hmem
  obtain ⟨x, hx, hname⟩ := List.mem_map.1 hok
  cases h with
  | app hm hts =>
    rcases List.mem_cons.1 hx with rfl | hx
    · cases hname
      exact hm
    · obtain ⟨t, ht, rfl⟩ := List.mem_map.1 hx
      exact (hts t ht).isIdent_fieldName hname

/-- The fields that are put in front of a context are one more group of it. -/
theorem Ty.Printable.withContext {t shared : Ty} (ht : t.Printable) (hs : shared.Printable)
    {ns : List Name} (hne : ns ≠ []) (hns : ∀ n ∈ ns, n.IsIdent) (loc : Location) :
    (t.withContext ns shared loc).Printable := by
  obtain ⟨n, ns, rfl⟩ := List.exists_cons_of_ne_nil hne
  cases ht with
  | @app m ts l hm hts =>
    have hgroup : (n :: ns).map (Field.ofName shared) =
        FieldGroup.context 0 [⟨n, ns, shared⟩] := (List.append_nil _).symm
    rw [Ty.withContext, hgroup]
    exact .func (List.forall_mem_singleton.2 hns) (List.forall_mem_singleton.2 hs)
      (List.cons_ne_nil _ _) (List.forall_mem_singleton.2 (.app hm hts))
  | @func gs ts l hnames hgs hne' hts =>
    have hgroups : (n :: ns).map (Field.ofName shared) ++
        (FieldGroup.context 0 gs).map (Field.behind (n :: ns).length) =
          FieldGroup.context 0 (⟨n, ns, shared⟩ :: gs) := by
      rw [FieldGroup.context_behind]
      rfl
    rw [Ty.withContext, hgroups]
    exact .func (List.forall_mem_cons.2 ⟨hns, hnames⟩) (List.forall_mem_cons.2 ⟨hs, hgs⟩) hne' hts

/-! ## Phrases -/

/-- What is known of a tree for its text to tell it. -/
def Phrase.Readable : Phrase → Prop
  | .expr x | .head x | .argument x => x.collapse.Compact
  | .arguments xs => ∀ x ∈ xs, x.collapse.Compact
  | .call c => c.collapse.Compact
  | .type t | .atom t => t.Printable
  | .typeCall c => (Ty.app c).Printable
  | .typeArgument x => ∃ t : Ty, x = t.toExpr ∧ t.Printable
  | .typeArguments xs => ∃ ts : List Ty, xs = ts.map Ty.toExpr ∧ ∀ t ∈ ts, t.Printable
  | _ => True

theorem Call.compact_applied {fn : Expr} {args : List Expr} (loc : Location)
    (hf : fn.collapse.Compact) (ha : ∀ x ∈ args, x.collapse.Compact) :
    (applied fn args loc).collapse.Compact := by
  cases args with
  | nil =>
    have hhead : (applied fn [] loc).collapse = fn.collapse := by
      cases fn <;> simp [applied, Expr.collapse, collapse]
    rw [hhead]
    exact hf
  | cons x xs =>
    have hcall : applied fn (x :: xs) loc = ⟨fn, x :: xs, false, loc⟩ := by
      cases fn <;> rfl
    rw [hcall, collapse, ← Expr.collapseAll, Expr.collapseAll_eq]
    exact .call hf (List.cons_ne_nil _ _) (List.forall_mem_map.2 ha)

theorem Entry.compact_name {e : Entry} (he : e.Is .ident ∨ e.IsOperator) (hn : e.token.Named)
    (path : String) : (Expr.name (e.name path)).collapse.Compact := by
  rw [Expr.collapse]
  exact .leaf (.name (he.imp hn.ident hn.operator))

theorem Entry.compact_reference {e : Entry} (he : e.Is .ident ∨ e.IsOperator)
    (hn : e.token.Named) (path : String) :
    (Expr.call (e.name path).toCall).collapse.Compact := by
  rw [Expr.collapse, Name.toCall, Call.collapse]
  exact compact_name he hn path

/-- Every phrase that is read from scanned tokens is told by its text. -/
theorem Derives.readable {path : String} {ph : Phrase} {es : List Entry} (h : Derives path ph es)
    (hes : ∀ e ∈ es, e.token.Named) : ph.Readable := by
  induction h with
  | integer h | argumentInteger h => exact Expr.compact_ofInteger _
  | float h | argumentFloat h => exact Expr.compact_ofFloat _ _
  | application h ih =>
    rw [Phrase.Readable, Expr.collapse]
    exact ih hes
  | headName h => exact Entry.compact_name (Or.inl h) (hes _ (by simp)) _
  | headOperator hl ho hr => exact Entry.compact_name (Or.inr ho) (hes _ (by simp)) _
  | argumentName h => exact Entry.compact_reference (Or.inl h) (hes _ (by simp)) _
  | argumentOperator hl ho hr => exact Entry.compact_reference (Or.inr ho) (hes _ (by simp)) _
  | headNested hl h hr ih | argumentNested hl h hr ih | atomNested hl h hr ih =>
    exact ih fun e he => hes e (by simp [he])
  | noArguments => exact List.forall_mem_nil _
  | moreArguments h hs ih ihs =>
    obtain ⟨hes, hfs⟩ := List.forall_mem_append.1 hes
    exact List.forall_mem_cons.2 ⟨ih hes, ihs hfs⟩
  | @call e fn args es fs h hs ih ihs =>
    rw [← List.cons_append, List.forall_mem_append] at hes
    exact Call.compact_applied _ (ih hes.1) (ihs hes.2)
  | typeCall h hs ihs =>
    obtain ⟨he, hes⟩ := List.forall_mem_cons.1 hes
    obtain ⟨ts, rfl, hts⟩ := ihs hes
    exact .app (he.ident h) hts
  | @typeArgumentName e h =>
    have hident : (e.name path).IsIdent := (hes e (by simp)).ident h
    exact ⟨.app (e.name path).toCall, rfl, .reference hident _⟩
  | typeArgumentNested hl h hr ih => exact ⟨_, rfl, ih fun e he => hes e (by simp [he])⟩
  | noTypeArguments => exact ⟨[], rfl, List.forall_mem_nil _⟩
  | moreTypeArguments h hs ih ihs =>
    obtain ⟨hes, hfs⟩ := List.forall_mem_append.1 hes
    obtain ⟨t, rfl, ht⟩ := ih hes
    obtain ⟨ts, rfl, hts⟩ := ihs hfs
    exact ⟨t :: ts, rfl, List.forall_mem_cons.2 ⟨ht, hts⟩⟩
  | atomCall h ih | typeAtom h ih => exact ih hes
  | @arrow e a t u es fs ht ha hu iht ihu =>
    rw [← List.cons_append, List.forall_mem_append] at hes
    have hresult := ihu (List.forall_mem_cons.1 hes.2).2
    exact @Ty.Printable.func [] [t, u] _ nofun nofun (List.cons_ne_nil _ _)
      (List.forall_mem_cons.2 ⟨iht hes.1, List.forall_mem_singleton.2 hresult⟩)
  | context hl hi hn hc hs hr ha hu ihi ihs ihu =>
    simp only [List.forall_mem_cons, List.forall_mem_append] at hes
    obtain ⟨-, hes, -, hfs, -, -, hgs⟩ := hes
    exact (ihu hgs).withContext (ihs hfs) (Ty.fieldNames_ne_nil hn)
      ((ihi hes).isIdent_fieldNames hn) _
  | _ => trivial

/-! ## Parsed trees -/

/-- What a parser passes that has come somewhere by calls. -/
theorem Parser.Reached.readable {path : String} {reads : List Read} {s t : Parser} {ph : Phrase}
    {es : List Entry} (hs : s.Reached path reads) (hp : Passes s es t)
    (hd : Derives s.path ph es) : ph.Readable := by
  obtain ⟨-, -, -, hsub⟩ := hs.passes hp
  exact hd.readable fun e he => Tokens.named _ e (hsub he)

namespace Parse

variable {path path' : String} {reads reads' : List Read} {s s' t t' : Parser}

theorem compact_expr (hs : s.Reached path reads) {x : Expr} (h : expr s = .ok x t) :
    x.collapse.Compact := by
  obtain ⟨es, hp, hd⟩ := yields_expr s t x h
  exact hs.readable hp hd

theorem printable_type (hs : s.Reached path reads) {a : Ty} (h : type s = .ok a t) :
    a.Printable := by
  obtain ⟨es, hp, hd⟩ := yields_type s t a h
  exact hs.readable hp hd

/-- Two expressions that were parsed have one text exactly if they are one expression up to
locations and calls without arguments, and two types that were parsed exactly if they are one
type up to locations, with the same fields declared together. -/
theorem text_faithful (hs : s.Reached path reads) (hs' : s'.Reached path' reads') :
    (∀ x y, expr s = .ok x t → expr s' = .ok y t' →
      (x.text = y.text ↔ x.collapse.relocate away = y.collapse.relocate away)) ∧
    ∀ a b, type s = .ok a t → type s' = .ok b t' →
      (a.text = b.text ↔ a.relocate away = b.relocate away) := by
  refine ⟨fun x y hx hy => ⟨fun h => ?_, fun h => ?_⟩, fun a b ha hb => ⟨fun h => ?_, fun h => ?_⟩⟩
  · rw [← Expr.text_collapse x, ← Expr.text_collapse y] at h
    have hchars := congrArg (· ++ []) (congrArg String.toList h)
    exact ((compact_expr hs hx).decodes _ (compact_expr hs' hy) [] [] delimited_nil delimited_nil
      hchars).1
  · rw [← Expr.text_collapse x, ← Expr.text_collapse y, ← Expr.text_relocate away x.collapse, h,
      Expr.text_relocate]
  · have hchars := congrArg (· ++ []) (congrArg String.toList h)
    exact ((printable_type hs ha).decodes _ (printable_type hs' hb) [] [] delimited_nil
      delimited_nil hchars).1
  · rw [← Ty.text_relocate away a, h, Ty.text_relocate]

def written? {α : Type} (text : α → String) (x : Parse α) (s : Parser) : Option String :=
  match x s with
  | .ok a _ => some (text a)
  | .error _ _ => none

theorem written?_eq_some {α : Type} {text : α → String} {x : Parse α} {s : Parser} {w : String} :
    written? text x s = some w ↔ ∃ a t, x s = .ok a t ∧ text a = w := by
  unfold written?
  cases x s <;> simp

theorem text_faithful_references :
    (∃ x y t t', expr (.ofReads "" [.bytes "f (1) (g) 2.50".toUTF8]) = .ok x t ∧
      expr (.ofReads "" [.bytes "((f)) 1 g 0x1.4p1".toUTF8]) = .ok y t' ∧
      x.collapse.relocate away = y.collapse.relocate away) ∧
    ∃ a b t t', type (.ofReads "" [.bytes "(a b : T) => (c : T) => a -> f b".toUTF8]) = .ok a t ∧
      type (.ofReads "" [.bytes "(a b : (T)) => ((c : T) => a -> (f (b)))".toUTF8]) = .ok b t' ∧
      a.relocate away = b.relocate away := by
  have hx : written? Expr.text expr (.ofReads "" [.bytes "f (1) (g) 2.50".toUTF8]) =
      some "(f 1 g 2.5)" := by decide +kernel
  have hy : written? Expr.text expr (.ofReads "" [.bytes "((f)) 1 g 0x1.4p1".toUTF8]) =
      some "(f 1 g 2.5)" := by decide +kernel
  have ha : written? Ty.text type
      (.ofReads "" [.bytes "(a b : T) => (c : T) => a -> f b".toUTF8]) =
        some "(a b : T) => (c : T) => (-> a (f b))" := by decide +kernel
  have hb : written? Ty.text type
      (.ofReads "" [.bytes "(a b : (T)) => ((c : T) => a -> (f (b)))".toUTF8]) =
        some "(a b : T) => (c : T) => (-> a (f b))" := by decide +kernel
  obtain ⟨x, t, hx, hxt⟩ := written?_eq_some.1 hx
  obtain ⟨y, u, hy, hyt⟩ := written?_eq_some.1 hy
  obtain ⟨a, v, ha, hat⟩ := written?_eq_some.1 ha
  obtain ⟨b, w, hb, hbt⟩ := written?_eq_some.1 hb
  exact ⟨⟨x, y, t, u, hx, hy, ((text_faithful .start .start).1 x y hx hy).1 (hxt.trans hyt.symm)⟩,
    a, b, v, w, ha, hb, ((text_faithful .start .start).2 a b ha hb).1 (hat.trans hbt.symm)⟩

end Parse
end FrontEnd
