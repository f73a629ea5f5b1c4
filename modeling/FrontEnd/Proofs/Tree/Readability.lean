import FrontEnd.Grammar.Type
import FrontEnd.Proofs.Tree.Words

/-!
# Trees told by their text

The text of a tree stands out from whatever follows it: where two texts, each in front of a
delimiter, make one text, they are written for trees that are equal up to locations.  A
parenthesis may open a call, an arrow or the names of a context, and the words behind it tell
which, because no name of a type is an arrow or a colon.
-/

namespace FrontEnd

open Surface (away)

/-! ## Rows -/

def spaced (ws : List String) : List Char :=
  ws.flatMap fun w => ' ' :: w.toList

def row (head : String) (ws : List String) : List Char :=
  '(' :: (head.toList ++ (spaced ws ++ [')']))

theorem spaced_nil : spaced [] = [] := rfl

theorem spaced_cons (w : String) (ws : List String) :
    spaced (w :: ws) = ' ' :: (w.toList ++ spaced ws) := rfl

theorem spaced_cons_append (w : String) (ws : List String) (r : List Char) :
    spaced (w :: ws) ++ r = ' ' :: (w.toList ++ (spaced ws ++ r)) := by
  rw [spaced_cons, List.cons_append, List.append_assoc]

theorem toList_intercalate (w : String) (ws : List String) :
    (" ".intercalate (w :: ws)).toList = w.toList ++ spaced ws := by
  induction ws generalizing w with
  | nil => simp [spaced_nil]
  | cons v ws ih =>
    rw [String.intercalate_cons_of_ne_nil (List.cons_ne_nil v ws), String.toList_append,
      String.toList_append, ih, spaced_cons, List.append_assoc]
    rfl

theorem row_append (head : String) (ws : List String) (r : List Char) :
    row head ws ++ r = '(' :: (head.toList ++ (spaced ws ++ ([')'] ++ r))) := by
  simp only [row, List.cons_append, List.append_assoc]

/-- The text of `a` in front of a delimiter is that of no other valid tree, if trees of one
`form` count as one. -/
def Decodes {α β : Type} (valid : α → Prop) (code : α → String) (form : α → β) (a : α) : Prop :=
  ∀ b, valid b → ∀ r s, Delimited r → Delimited s →
    (code a).toList ++ r = (code b).toList ++ s → form a = form b ∧ r = s

section
variable {α β γ δ : Type} {valid : α → Prop} {code : α → String} {form : α → β}
  {valid' : γ → Prop} {code' : γ → String} {form' : γ → δ} {as bs : List α} {r s t : List Char}

structure EndsRow (valid : α → Prop) (code : α → String) (t : List Char) : Prop where
  delimited : ∀ r, Delimited (t ++ r)
  apart : ∀ b, valid b → ∀ r s, ' ' :: ((code b).toList ++ r) ≠ t ++ s

theorem endsRow_close : EndsRow valid code [')'] where
  delimited := delimited_close
  apart b _ r s h := by cases (List.cons.inj h).1

theorem EndsRow.delimited_spaced (ht : EndsRow valid code t) (ws : List String) (r : List Char) :
    Delimited (spaced ws ++ (t ++ r)) := by
  cases ws with
  | nil => exact ht.delimited r
  | cons w ws => exact delimited_blank _

/-- In a row each text is told by its own, one after another. -/
theorem EndsRow.spaced_inj (ht : EndsRow valid code t) (hvalid : ∀ a ∈ as, valid a)
    (has : ∀ a ∈ as, Decodes valid code form a) (hbs : ∀ b ∈ bs, valid b)
    (h : spaced (as.map code) ++ (t ++ r) = spaced (bs.map code) ++ (t ++ s)) :
    as.map form = bs.map form ∧ r = s := by
  induction as generalizing bs with
  | nil =>
    cases bs with
    | nil => exact ⟨rfl, List.append_cancel_left h⟩
    | cons b bs =>
      rw [List.map_cons, spaced_cons_append] at h
      exact absurd h.symm (ht.apart b (hbs b List.mem_cons_self) _ _)
  | cons a as ih =>
    rw [List.forall_mem_cons] at hvalid has
    rw [List.map_cons, spaced_cons_append] at h
    cases bs with
    | nil => exact absurd h (ht.apart a hvalid.1 _ _)
    | cons b bs =>
      rw [List.forall_mem_cons] at hbs
      rw [List.map_cons, spaced_cons_append] at h
      obtain ⟨hform, hrest⟩ := has.1 b hbs.1 _ _ (ht.delimited_spaced _ _) (ht.delimited_spaced _ _)
        (List.cons.inj h).2
      obtain ⟨hforms, hr⟩ := ih hvalid.2 has.2 hbs.2 hrest
      exact ⟨by rw [List.map_cons, List.map_cons, hform, hforms], hr⟩

theorem row_inj {f g : γ} (hf : Decodes valid' code' form' f) (hg : valid' g)
    (hvalid : ∀ a ∈ as, valid a) (has : ∀ a ∈ as, Decodes valid code form a)
    (hbs : ∀ b ∈ bs, valid b)
    (h : row (code' f) (as.map code) ++ r = row (code' g) (bs.map code) ++ s) :
    form' f = form' g ∧ as.map form = bs.map form ∧ r = s := by
  have ht : EndsRow valid code [')'] := endsRow_close
  rw [row_append, row_append] at h
  obtain ⟨hhead, hrest⟩ := hf g hg _ _ (ht.delimited_spaced _ _) (ht.delimited_spaced _ _)
    (List.cons.inj h).2
  exact ⟨hhead, ht.spaced_inj hvalid has hbs hrest⟩

end

theorem decodes_word {w : String} (hw : Unbroken w.toList) :
    Decodes (fun w : String => Unbroken w.toList) id id w := by
  intro v hv r s hr hs h
  obtain ⟨hwords, hrest⟩ := hw.append_inj hv hr hs h
  exact ⟨String.toList_inj.1 hwords, hrest⟩

/-! ## Expressions -/

mutual

/-- An expression with every call without arguments replaced by its head.  Types are left as
they are. -/
def Expr.collapse : Expr → Expr
  | .call c => c.collapse
  | .name n => .name n
  | .integer v loc => .integer v loc
  | .float v loc => .float v loc
  | .bad loc => .bad loc
  | .field f => .field f
  | .func f => .func f

def Expr.collapseAll : List Expr → List Expr
  | [] => []
  | x :: xs => x.collapse :: Expr.collapseAll xs

def Call.collapse : Call → Expr
  | ⟨fn, [], _, _⟩ => fn.collapse
  | ⟨fn, x :: xs, dots, loc⟩ => .call ⟨fn.collapse, x.collapse :: Expr.collapseAll xs, dots, loc⟩

end

mutual

/-- A call without arguments is written as its head. -/
theorem Expr.text_collapse : (x : Expr) → x.collapse.text = x.text
  | .call c => by rw [Expr.collapse, Expr.text, Call.text_collapse c]
  | .name n => by rw [Expr.collapse]
  | .integer v loc => by rw [Expr.collapse]
  | .float v loc => by rw [Expr.collapse]
  | .bad loc => by rw [Expr.collapse]
  | .field f => by rw [Expr.collapse]
  | .func f => by rw [Expr.collapse]

theorem Expr.texts_collapseAll : (xs : List Expr) →
    Expr.texts (Expr.collapseAll xs) = Expr.texts xs
  | [] => by rw [Expr.collapseAll]
  | x :: xs => by
    rw [Expr.collapseAll, Expr.texts, Expr.texts, Expr.text_collapse x, Expr.texts_collapseAll xs]

theorem Call.text_collapse : (c : Call) → c.collapse.text = c.text
  | ⟨fn, [], dots, loc⟩ => by
    rw [Call.collapse, Call.text, Expr.text_collapse fn]
    rfl
  | ⟨fn, x :: xs, dots, loc⟩ => by
    rw [Call.collapse, Expr.text, Call.text, Call.text, Expr.texts, Expr.texts,
      Expr.text_collapse fn, Expr.text_collapse x, Expr.texts_collapseAll xs]
    rfl

end

namespace Expr

variable {x y : Expr}

theorem texts_eq (xs : List Expr) : texts xs = xs.map text := by
  induction xs with
  | nil => rw [texts, List.map_nil]
  | cons x xs ih => rw [texts, ih, List.map_cons]

theorem collapseAll_eq (xs : List Expr) : collapseAll xs = xs.map collapse := by
  induction xs with
  | nil => rw [collapseAll, List.map_nil]
  | cons x xs ih => rw [collapseAll, ih, List.map_cons]

theorem toList_text_call (fn : Expr) {args : List Expr} (hne : args ≠ []) (loc : Location) :
    (call ⟨fn, args, false, loc⟩).text.toList = row fn.text (args.map text) := by
  obtain ⟨x, xs, rfl⟩ := List.exists_cons_of_ne_nil hne
  rw [text, Call.text, texts_eq, List.isEmpty_cons, List.map_cons]
  simp only [Bool.false_eq_true, if_false, String.toList_append, toList_intercalate]
  simp [row, spaced_cons]

/-- What is left of a parsed expression once its calls without arguments are gone. -/
inductive Compact : Expr → Prop where
  | leaf {x : Expr} (h : x.IsLeaf) : Compact x
  | call {fn : Expr} {args : List Expr} {loc : Location} (hf : Compact fn) (hne : args ≠ [])
      (ha : ∀ x ∈ args, Compact x) : Compact (.call ⟨fn, args, false, loc⟩)

theorem IsLeaf.ne_row (h : x.IsLeaf) (head : String) (ws : List String) (r s : List Char) :
    x.text.toList ++ r ≠ row head ws ++ s := by
  rw [row_append]
  exact h.unbroken.ne_open

theorem Compact.decodes (h : x.Compact) : Decodes Compact text (relocate away) x := by
  induction h with
  | leaf hx =>
    intro y hy r s hr hs heq
    cases hy with
    | leaf hy =>
      obtain ⟨hwords, hrest⟩ := hx.unbroken.append_inj hy.unbroken hr hs heq
      exact ⟨hx.eq_of_text hy hwords, hrest⟩
    | call hg hne hb =>
      rw [toList_text_call _ hne] at heq
      exact absurd heq (hx.ne_row _ _ _ _)
  | call hf hne ha ihf iha =>
    intro y hy r s hr hs heq
    rw [toList_text_call _ hne] at heq
    cases hy with
    | leaf hy => exact absurd heq.symm (hy.ne_row _ _ _ _)
    | call hg hne' hb =>
      rw [toList_text_call _ hne'] at heq
      obtain ⟨hfn, hargs, hrest⟩ := row_inj ihf hg ha iha hb heq
      refine ⟨?_, hrest⟩
      rw [relocate, relocate, Call.relocate, Call.relocate, relocateAll_eq, relocateAll_eq, hfn,
        hargs]
      rfl

end Expr

/-! ## Contexts -/

/-- The fields of a context that are declared together, of which there is at least one. -/
structure FieldGroup where
  first : Name
  more : List Name
  ty : Ty

namespace FieldGroup

def names (g : FieldGroup) : List Name :=
  g.first :: g.more

def fields (start : Nat) (g : FieldGroup) : List Field :=
  g.names.map fun n => ⟨some n, g.ty, start, n.loc⟩

def context : Nat → List FieldGroup → List Field
  | _, [] => []
  | start, g :: gs => g.fields start ++ context (start + g.names.length) gs

def chars (g : FieldGroup) : List Char :=
  '(' :: (g.first.value.toList ++ (spaced (g.more.map Name.value) ++
    (" : ".toList ++ (g.ty.text.toList ++ ") => ".toList))))

def relocate (f : Location → Location) (g : FieldGroup) : FieldGroup :=
  ⟨g.first.relocate f, g.more.map (Name.relocate f), g.ty.relocate f⟩

theorem context_behind (m : Nat) (gs : List FieldGroup) (start : Nat) :
    (context start gs).map (Field.behind m) = context (start + m) gs := by
  induction gs generalizing start with
  | nil => rfl
  | cons g gs ih =>
    rw [context, context, List.map_append, ih, fields, fields, List.map_map,
      Nat.add_right_comm start]
    rfl

theorem context_relocate (f : Location → Location) (gs : List FieldGroup) (start : Nat) :
    Field.relocateAll f (context start gs) = context start (gs.map (relocate f)) := by
  rw [Field.relocateAll_eq]
  induction gs generalizing start with
  | nil => rfl
  | cons g gs ih =>
    have hnames : (g.relocate f).names = g.names.map (Name.relocate f) := rfl
    have hfields : (g.fields start).map (Field.relocate f) = (g.relocate f).fields start := by
      rw [fields, fields, hnames, List.map_map, List.map_map]
      refine List.map_congr_left fun n _ => ?_
      rw [Function.comp, Field.relocate]
      rfl
    rw [List.map_cons, context, context, List.map_append, ih, hfields, hnames, List.length_map]

theorem toList_contextText_fields (ty : Ty) (start : Nat) (type : String) (fs : List Field)
    (ns : List Name) :
    (Field.contextText (some (start, type))
      ((ns.map fun n => ⟨some n, ty, start, n.loc⟩) ++ fs)).toList =
    spaced (ns.map Name.value) ++ (Field.contextText (some (start, type)) fs).toList := by
  induction ns with
  | nil => rfl
  | cons n ns ih =>
    have hgo : Field.continues ⟨some n, ty, start, n.loc⟩ (some (start, type)) = true :=
      decide_eq_true rfl
    rw [List.map_cons, List.cons_append, Field.contextText, if_pos hgo, String.toList_append,
      String.toList_append, ih, List.map_cons, spaced_cons_append, List.append_assoc]
    rfl

/-- A context is written group by group. -/
theorem toList_contextText (gs : List FieldGroup) (start : Nat) (run : Option (Nat × String))
    (hrun : ∀ p ∈ run, p.1 < start) :
    (Field.contextText run (context start gs)).toList =
      (Field.closing run).toList ++ gs.flatMap chars := by
  induction gs generalizing start run with
  | nil =>
    rw [context, Field.contextText]
    exact (List.append_nil _).symm
  | cons g gs ih =>
    have hstop : Field.continues ⟨some g.first, g.ty, start, g.first.loc⟩ run = false := by
      cases run with
      | none => rfl
      | some p => exact decide_eq_false (Nat.ne_of_gt (hrun p rfl))
    have hnext : ∀ p ∈ some (start, g.ty.text), p.1 < start + g.names.length := by
      rintro p ⟨⟩
      exact Nat.lt_add_of_pos_right (Nat.zero_lt_succ _)
    have hrest := ih _ _ hnext
    rw [context, fields, names, List.map_cons, List.cons_append, Field.contextText, hstop,
      if_neg Bool.false_ne_true, Field.typeText, String.toList_append, String.toList_append,
      String.toList_append, toList_contextText_fields]
    dsimp only [names] at hrest ⊢
    rw [hrest, List.flatMap_cons, chars]
    simp [Field.closing, Field.label]

end FieldGroup

/-! ## Types -/

def Name.IsIdent (n : Name) : Prop :=
  SpellsIdent n.value.toList

theorem decodes_name {n : Name} (hn : n.IsIdent) :
    Decodes Name.IsIdent Name.value (Name.relocate away) n := by
  intro m hm r s hr hs h
  obtain ⟨hwords, hrest⟩ := hn.unbroken.append_inj hm.unbroken hr hs h
  refine ⟨?_, hrest⟩
  rw [Name.relocate, Name.relocate, String.toList_inj.1 hwords]
  rfl

theorem endsRow_colon : EndsRow Name.IsIdent Name.value " : ".toList where
  delimited r := delimited_blank _
  apart n hn r s h := by
    obtain ⟨c, cs, hcs, hc⟩ := hn.begins
    rw [hcs] at h
    cases (List.cons.inj (List.cons.inj h).2).1
    cases hc

namespace Ty

theorem text_toExpr (t : Ty) : t.toExpr.text = t.text := by
  cases t <;> rw [toExpr, Expr.text, text]

theorem texts_eq (ts : List Ty) : texts ts = ts.map text := by
  induction ts with
  | nil => rw [texts, List.map_nil]
  | cons t ts ih => rw [texts, ih, List.map_cons]

theorem texts_toExpr (ts : List Ty) : Expr.texts (ts.map toExpr) = ts.map text := by
  rw [Expr.texts_eq, List.map_map]
  exact List.map_congr_left fun t _ => text_toExpr t

theorem toList_text_app (n : Name) {ts : List Ty} (hne : ts ≠ []) (loc : Location) :
    (app ⟨.name n, ts.map toExpr, false, loc⟩).text.toList = row n.value (ts.map text) := by
  have hargs : ts.map toExpr ≠ [] := mt List.map_eq_nil_iff.1 hne
  have htext := Expr.toList_text_call (.name n) hargs loc
  rw [Expr.text, Expr.text, ← Expr.texts_eq, texts_toExpr] at htext
  rw [text, htext]

theorem text_reference (n : Name) (loc : Location) :
    (app ⟨.name n, [], false, loc⟩).text = n.value := by
  rw [text, Call.text, Expr.text]
  rfl

theorem toList_text_func (gs : List FieldGroup) {ts : List Ty} (hne : ts ≠ []) (loc : Location) :
    (func ⟨FieldGroup.context 0 gs, ts, loc⟩).text.toList =
      gs.flatMap FieldGroup.chars ++ row "->" (ts.map text) := by
  obtain ⟨t, ts, rfl⟩ := List.exists_cons_of_ne_nil hne
  rw [text, FuncTy.text, texts_eq, List.map_cons, String.toList_append, String.toList_append,
    String.toList_append, FieldGroup.toList_contextText gs 0 none nofun, toList_intercalate]
  simp [Field.closing, row, spaced_cons]

inductive Printable : Ty → Prop where
  | app {n : Name} {ts : List Ty} {loc : Location} (hn : n.IsIdent)
      (hts : ∀ t ∈ ts, Printable t) : Printable (.app ⟨.name n, ts.map toExpr, false, loc⟩)
  | func {gs : List FieldGroup} {ts : List Ty} {loc : Location}
      (hnames : ∀ g ∈ gs, ∀ n ∈ g.names, n.IsIdent) (hgs : ∀ g ∈ gs, Printable g.ty)
      (hne : ts ≠ []) (hts : ∀ t ∈ ts, Printable t) :
      Printable (.func ⟨FieldGroup.context 0 gs, ts, loc⟩)

theorem Printable.begins {t : Ty} (h : t.Printable) :
    SpellsIdent t.text.toList ∨ ∃ cs, t.text.toList = '(' :: cs := by
  cases h with
  | @app n ts loc hn hts =>
    cases ts with
    | nil =>
      rw [List.map_nil, text_reference]
      exact Or.inl hn
    | cons t ts =>
      rw [toList_text_app n (List.cons_ne_nil t ts)]
      exact Or.inr ⟨_, rfl⟩
  | @func gs ts loc hnames hgs hne hts =>
    rw [toList_text_func gs hne]
    cases gs with
    | nil => exact Or.inr ⟨_, rfl⟩
    | cons g gs => exact Or.inr ⟨_, rfl⟩

/-- What goes on as a row of types does not go on as the names of a context, because there is
no type at the colon. -/
theorem spaced_ne_names {ts : List Ty} {ns : List Name} {r s : List Char}
    (hts : ∀ t ∈ ts, t.Printable) (hns : ∀ n ∈ ns, n.IsIdent) :
    spaced (ts.map text) ++ ([')'] ++ r) ≠ spaced (ns.map Name.value) ++ (" : ".toList ++ s) := by
  have hclose : EndsRow Printable text [')'] := endsRow_close
  induction ts generalizing ns with
  | nil =>
    intro h
    cases ns <;> cases (List.cons.inj h).1
  | cons t ts ih =>
    intro h
    rw [List.forall_mem_cons] at hts
    rw [List.map_cons, spaced_cons_append] at h
    cases ns with
    | nil =>
      have hcolon : t.text.toList ++ (spaced (ts.map text) ++ ([')'] ++ r)) = ':' :: ' ' :: s :=
        (List.cons.inj h).2
      rcases hts.1.begins with ⟨⟨c, cs, hcs, hc⟩, -⟩ | ⟨cs, hcs⟩
      · rw [hcs] at hcolon
        rw [(List.cons.inj hcolon).1] at hc
        cases hc
      · rw [hcs] at hcolon
        cases (List.cons.inj hcolon).1
    | cons n ns =>
      rw [List.forall_mem_cons] at hns
      rw [List.map_cons, spaced_cons_append] at h
      rcases hts.1.begins with ht | ⟨cs, hcs⟩
      · obtain ⟨-, hrest⟩ := ht.unbroken.append_inj hns.1.unbroken (hclose.delimited_spaced _ _)
          (endsRow_colon.delimited_spaced _ _) (List.cons.inj h).2
        exact ih hts.2 hns.2 hrest
      · rw [hcs] at h
        exact hns.1.unbroken.ne_open (List.cons.inj h).2.symm

end Ty

namespace FieldGroup

variable {g h : FieldGroup} {r s : List Char}

theorem chars_append (g : FieldGroup) (r : List Char) :
    g.chars ++ r = '(' :: (g.first.value.toList ++ (spaced (g.more.map Name.value) ++
      (" : ".toList ++ (g.ty.text.toList ++ (") => ".toList ++ r))))) := by
  simp only [chars, List.cons_append, List.append_assoc]

/-- The names of a group are those up to the colon, and its type is that up to the
parenthesis. -/
theorem chars_inj (hg : ∀ n ∈ g.names, n.IsIdent) (hh : ∀ n ∈ h.names, n.IsIdent)
    (hty : Decodes Ty.Printable Ty.text (Ty.relocate away) g.ty) (hty' : h.ty.Printable)
    (heq : g.chars ++ r = h.chars ++ s) : g.relocate away = h.relocate away ∧ r = s := by
  rw [names, List.forall_mem_cons] at hg hh
  rw [chars_append, chars_append] at heq
  obtain ⟨hfirst, hnames⟩ := decodes_name hg.1 h.first hh.1 _ _
    (endsRow_colon.delimited_spaced _ _) (endsRow_colon.delimited_spaced _ _) (List.cons.inj heq).2
  obtain ⟨hmore, htype⟩ := endsRow_colon.spaced_inj hg.2 (fun n hn => decodes_name (hg.2 n hn))
    hh.2 hnames
  have hclose : ∀ r, Delimited (") => ".toList ++ r) := fun r => delimited_close _
  obtain ⟨hform, hrest⟩ := hty h.ty hty' _ _ (hclose _) (hclose _) htype
  refine ⟨?_, List.append_cancel_left hrest⟩
  rw [relocate, relocate, hfirst, hmore, hform]

theorem chars_ne_arrow (hg : ∀ n ∈ g.names, n.IsIdent) (ws : List String) :
    g.chars ++ r ≠ row "->" ws ++ s := by
  intro h
  obtain ⟨c, cs, hcs, hc⟩ := (hg g.first List.mem_cons_self).begins
  rw [chars_append, row_append, hcs] at h
  cases (List.cons.inj (List.cons.inj h).2).1
  cases hc

/-- Contexts are told group by group, up to the arrow. -/
theorem groups_inj {gs hs : List FieldGroup} {ws vs : List String}
    (hgs : ∀ g ∈ gs, ∀ n ∈ g.names, n.IsIdent) (hhs : ∀ h ∈ hs, ∀ n ∈ h.names, n.IsIdent)
    (htys : ∀ g ∈ gs, Decodes Ty.Printable Ty.text (Ty.relocate away) g.ty)
    (htys' : ∀ h ∈ hs, h.ty.Printable)
    (heq : gs.flatMap chars ++ (row "->" ws ++ r) = hs.flatMap chars ++ (row "->" vs ++ s)) :
    gs.map (relocate away) = hs.map (relocate away) ∧ row "->" ws ++ r = row "->" vs ++ s := by
  induction gs generalizing hs with
  | nil =>
    cases hs with
    | nil => exact ⟨rfl, heq⟩
    | cons h hs =>
      rw [List.flatMap_cons, List.append_assoc] at heq
      exact absurd heq.symm (chars_ne_arrow (hhs h List.mem_cons_self) ws)
  | cons g gs ih =>
    rw [List.forall_mem_cons] at hgs htys
    rw [List.flatMap_cons, List.append_assoc] at heq
    cases hs with
    | nil => exact absurd heq (chars_ne_arrow hgs.1 vs)
    | cons h hs =>
      rw [List.forall_mem_cons] at hhs htys'
      rw [List.flatMap_cons, List.append_assoc] at heq
      obtain ⟨hform, hrest⟩ := chars_inj hgs.1 hhs.1 htys.1 htys'.1 heq
      obtain ⟨hforms, harrow⟩ := ih hgs.2 hhs.2 htys.2 htys'.2 hrest
      exact ⟨by rw [List.map_cons, List.map_cons, hform, hforms], harrow⟩

end FieldGroup

namespace Ty

variable {n m : Name} {ts us : List Ty} {gs hs : List FieldGroup} {r s : List Char}

/-- An application is no function type: it has no arrow behind its parenthesis, and no colon
behind its names. -/
theorem app_ne_func (hn : n.IsIdent) (hts : ∀ t ∈ ts, t.Printable) (loc : Location)
    (hgs : ∀ g ∈ gs, ∀ n ∈ g.names, n.IsIdent) (hne : us ≠ []) (loc' : Location) :
    (app ⟨.name n, ts.map toExpr, false, loc⟩).text.toList ++ r ≠
      (func ⟨FieldGroup.context 0 gs, us, loc'⟩).text.toList ++ s := by
  intro h
  rw [toList_text_func gs hne, List.append_assoc] at h
  cases ts with
  | nil =>
    rw [List.map_nil, text_reference] at h
    cases gs <;> exact hn.unbroken.ne_open h
  | cons t ts =>
    have hclose : EndsRow Printable text [')'] := endsRow_close
    rw [toList_text_app n (List.cons_ne_nil t ts), row_append] at h
    cases gs with
    | nil =>
      obtain ⟨c, cs, hcs, hc⟩ := hn.begins
      rw [hcs, List.flatMap_nil, List.nil_append, row_append] at h
      cases (List.cons.inj (List.cons.inj h).2).1
      cases hc
    | cons g gs =>
      have hg := List.forall_mem_cons.1 (List.forall_mem_cons.1 hgs).1
      rw [List.flatMap_cons, List.append_assoc, FieldGroup.chars_append] at h
      obtain ⟨-, hrest⟩ := hn.unbroken.append_inj hg.1.unbroken (hclose.delimited_spaced _ _)
        (endsRow_colon.delimited_spaced _ _) (List.cons.inj h).2
      exact spaced_ne_names hts hg.2 hrest

theorem app_inj (hn : n.IsIdent) (hm : m.IsIdent) (hts : ∀ t ∈ ts, t.Printable)
    (hus : ∀ u ∈ us, u.Printable) (ih : ∀ t ∈ ts, Decodes Printable text (relocate away) t)
    (hr : Delimited r) (hs : Delimited s) (loc loc' : Location)
    (h : (app ⟨.name n, ts.map toExpr, false, loc⟩).text.toList ++ r =
      (app ⟨.name m, us.map toExpr, false, loc'⟩).text.toList ++ s) :
    n.relocate away = m.relocate away ∧ ts.map (relocate away) = us.map (relocate away) ∧
      r = s := by
  cases ts with
  | nil =>
    rw [List.map_nil, text_reference] at h
    cases us with
    | nil =>
      rw [List.map_nil, text_reference] at h
      obtain ⟨hname, hrest⟩ := decodes_name hn m hm r s hr hs h
      exact ⟨hname, rfl, hrest⟩
    | cons u us =>
      rw [toList_text_app m (List.cons_ne_nil u us), row_append] at h
      exact absurd h hn.unbroken.ne_open
  | cons t ts =>
    rw [toList_text_app n (List.cons_ne_nil t ts)] at h
    cases us with
    | nil =>
      rw [List.map_nil, text_reference, row_append] at h
      exact absurd h.symm hm.unbroken.ne_open
    | cons u us =>
      rw [toList_text_app m (List.cons_ne_nil u us)] at h
      exact row_inj (decodes_name hn) hm hts ih hus h

theorem relocate_app (ts : List Ty) (f : Location → Location) (loc : Location) :
    (app ⟨.name n, ts.map toExpr, false, loc⟩).relocate f =
      app ⟨.name (n.relocate f), (ts.map (relocate f)).map toExpr, false, f loc⟩ := by
  have hargs : (ts.map toExpr).map (Expr.relocate f) = (ts.map (relocate f)).map toExpr := by
    rw [List.map_map, List.map_map]
    exact List.map_congr_left fun t _ => relocate_toExpr t
  rw [relocate, Call.relocate, Expr.relocate, Expr.relocateAll_eq, hargs]

theorem Printable.decodes {t : Ty} (h : t.Printable) :
    Decodes Printable text (relocate away) t := by
  induction h with
  | app hn hts ih =>
    intro u hu r s hr hs heq
    cases hu with
    | func hnames hgs hne hts' => exact absurd heq (app_ne_func hn hts _ hnames hne _)
    | app hm hus =>
      obtain ⟨hname, hargs, hrest⟩ := app_inj hn hm hts hus ih hr hs _ _ heq
      refine ⟨?_, hrest⟩
      rw [relocate_app, relocate_app, hname, hargs]
      rfl
  | func hnames hgs hne hts ihgs ihts =>
    intro u hu r s hr hs heq
    cases hu with
    | app hm hus => exact absurd heq.symm (app_ne_func hm hus _ hnames hne _)
    | func hnames' hgs' hne' hus =>
      rw [toList_text_func _ hne, toList_text_func _ hne', List.append_assoc,
        List.append_assoc] at heq
      obtain ⟨hgroups, harrow⟩ := FieldGroup.groups_inj hnames hnames' ihgs hgs' heq
      have hsign : Unbroken "->".toList := ⟨by decide, List.all_eq_true.1 (by decide)⟩
      obtain ⟨-, htypes, hrest⟩ := row_inj (decodes_word hsign) hsign hts ihts hus harrow
      refine ⟨?_, hrest⟩
      rw [relocate, relocate, FuncTy.relocate, FuncTy.relocate, FieldGroup.context_relocate,
        FieldGroup.context_relocate, relocateAll_eq, relocateAll_eq, hgroups, htypes]
      rfl

end Ty
end FrontEnd
