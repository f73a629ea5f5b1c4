import FrontEnd.Proofs.Grammar.Completeness
import FrontEnd.Proofs.Tree.Shape

/-!
# The names of a context

What stands between the parenthesis and the colon of a context is read as a type, and the
names are taken off the tree afterwards.  A tree does not show redundant parentheses, so
there may be some: around each name but the first, and around all of them together.
Anything else there is no context.

`Parse.type_group` says this of every parser that stands on a parenthesis and has a colon
before it in front of the closing one, which is where a group of a context begins.
-/

namespace FrontEnd

/-- Tokens with the property `P`, perhaps in parentheses, any number of them. -/
inductive Wrapped (P : List Entry → Prop) : List Entry → Prop where
  | bare {es : List Entry} (h : P es) : Wrapped P es
  | nested {l r : Entry} {es : List Entry} (hl : l.Is .parenLeft) (h : Wrapped P es)
      (hr : r.Is .parenRight) : Wrapped P (l :: (es ++ [r]))

inductive Row : List Entry → List Entry → Prop where
  | nil : Row [] []
  | cons {d : Entry} {ds es fs : List Entry} (h : Wrapped (· = [d]) es) (hs : Row ds fs) :
    Row (d :: ds) (es ++ fs)

/-- The identifiers `ds` in a row, each but the first perhaps in parentheses. -/
inductive Names : List Entry → List Entry → Prop where
  | row {d : Entry} {ds es : List Entry} (h : ∀ e ∈ d :: ds, e.Is .ident) (hs : Row ds es) :
    Names (d :: ds) (d :: es)

/-- What may stand before the colon of a context that has the names `ds`. -/
def GroupNames (ds es : List Entry) : Prop :=
  Wrapped (Names ds) es

/-- Behind `depth` parentheses, `es` closes these and all that it opens, and has a colon only
within parentheses. -/
def Enclosed : Nat → List Entry → Prop
  | depth, [] => depth = 0
  | depth, e :: es =>
    (depth = 0 → ¬ e.Is .parenRight ∧ ¬ e.Is .colon) ∧
      Enclosed (depthAfter depth e.token.kind) es

theorem Wrapped.imp {P Q : List Entry → Prop} {es : List Entry} (hpq : ∀ fs, P fs → Q fs)
    (h : Wrapped P es) : Wrapped Q es := by
  induction h with
  | bare h => exact .bare (hpq _ h)
  | nested hl h hr ih => exact .nested hl ih hr

/-- Without a parenthesis there is nothing but the tokens themselves. -/
theorem Wrapped.eq_of_bare {P : List Entry → Prop} {es : List Entry} (h : Wrapped P es)
    (hes : ∀ e ∈ es, ¬ e.Is .parenLeft) : P es := by
  cases h with
  | bare h => exact h
  | nested hl h hr => exact absurd hl (hes _ List.mem_cons_self)

theorem Row.eq_of_bare {ds es : List Entry} (h : Row ds es)
    (hes : ∀ e ∈ es, ¬ e.Is .parenLeft) : es = ds := by
  induction h with
  | nil => rfl
  | cons h hs ih =>
    obtain ⟨hfirst, hrest⟩ := List.forall_mem_append.1 hes
    rw [h.eq_of_bare hfirst, ih hrest]
    rfl

/-- Without parentheses the identifiers are all there is. -/
theorem GroupNames.eq_of_bare {ds es : List Entry} (h : GroupNames ds es)
    (hes : ∀ e ∈ es, ¬ e.Is .parenLeft) : es = ds := by
  cases Wrapped.eq_of_bare h hes with
  | row hds hs => rw [hs.eq_of_bare fun e he => hes e (List.mem_cons_of_mem _ he)]

theorem GroupNames.ident {ds es : List Entry} (h : GroupNames ds es) :
    ds ≠ [] ∧ ∀ d ∈ ds, d.Is .ident := by
  induction h with
  | bare h =>
    cases h with
    | row hds hs => exact ⟨List.cons_ne_nil _ _, hds⟩
  | nested hl h hr ih => exact ih

/-- One name is one identifier, perhaps in parentheses. -/
theorem groupNames_singleton {d : Entry} {es : List Entry} :
    GroupNames [d] es ↔ d.Is .ident ∧ Wrapped (· = [d]) es := by
  constructor
  · intro h
    refine ⟨h.ident.2 d List.mem_cons_self, Wrapped.imp (fun fs hfs => ?_) h⟩
    cases hfs with
    | row hds hs =>
      cases hs
      rfl
  · rintro ⟨hd, h⟩
    refine Wrapped.imp (fun fs hfs => ?_) h
    rw [hfs]
    exact .row (by simpa using hd) .nil

/-! ## The colon of a parenthesis -/

namespace Enclosed

variable {depth : Nat} {e l r : Entry} {es fs : List Entry}

theorem token {k : TokenKind} (he : e.Is k) (hk : k ∉ [.parenLeft, .parenRight, .colon])
    (h : Enclosed depth es) : Enclosed depth (e :: es) := by
  have hdepth : depthAfter depth e.token.kind = depth := by
    rw [he]
    cases k <;> first | rfl | exact absurd (by decide) hk
  refine ⟨fun _ => ⟨fun hr => ?_, fun hc => ?_⟩, hdepth.symm ▸ h⟩
  · cases he.symm.trans hr
    exact absurd (by decide) hk
  · cases he.symm.trans hc
    exact absurd (by decide) hk

theorem left (hl : l.Is .parenLeft) (h : Enclosed (depth + 1) es) : Enclosed depth (l :: es) := by
  refine ⟨fun _ => ⟨fun hr => ?_, fun hc => ?_⟩, ?_⟩
  · cases hl.symm.trans hr
  · cases hl.symm.trans hc
  · rw [hl]
    exact h

theorem right (hr : r.Is .parenRight) (h : Enclosed depth es) : Enclosed (depth + 1) (r :: es) := by
  refine ⟨nofun, ?_⟩
  rw [hr]
  exact h

theorem colon (hc : e.Is .colon) (h : Enclosed (depth + 1) es) :
    Enclosed (depth + 1) (e :: es) := by
  refine ⟨nofun, ?_⟩
  rw [hc]
  exact h

/-- Where a parenthesis has its colon, or is closed, is settled by the tokens behind it. -/
theorem unique {c d : Entry} {as bs : List Entry} (hes : Enclosed depth es)
    (hfs : Enclosed depth fs) (hc : c.Is .parenRight ∨ c.Is .colon)
    (hd : d.Is .parenRight ∨ d.Is .colon) (h : es ++ c :: as = fs ++ d :: bs) :
    es = fs ∧ c = d := by
  induction es generalizing depth fs with
  | nil =>
    cases fs with
    | nil => exact ⟨rfl, (List.cons.inj h).1⟩
    | cons f fs =>
      obtain ⟨rfl, -⟩ := List.cons.inj h
      exact hc.elim (absurd · (hfs.1 hes).1) (absurd · (hfs.1 hes).2)
  | cons e es ih =>
    cases fs with
    | nil =>
      obtain ⟨rfl, -⟩ := List.cons.inj h
      exact hd.elim (absurd · (hes.1 hfs).1) (absurd · (hes.1 hfs).2)
    | cons f fs =>
      obtain ⟨rfl, hrest⟩ := List.cons.inj h
      obtain ⟨rfl, hcd⟩ := ih hes.2 hfs.2 hrest
      exact ⟨rfl, hcd⟩

end Enclosed

/-- What may stand in front of tokens that are enclosed. -/
def Phrase.Encloses : Phrase → List Entry → Prop
  | .type _, es | .atom _, es | .typeCall _, es | .typeArgument _, es | .typeArguments _, es =>
    ∀ depth fs, Enclosed depth fs → Enclosed depth (es ++ fs)
  | _, _ => True

namespace Derives

variable {path : String}

theorem encloses {ph : Phrase} {es : List Entry} (h : Derives path ph es) : ph.Encloses es := by
  induction h with
  | typeCall h hs ihs => exact fun depth fs hfs => .token h (by decide) (ihs depth fs hfs)
  | typeArgumentName h => exact fun depth fs hfs => .token h (by decide) hfs
  | typeArgumentNested hl h hr ih | atomNested hl h hr ih =>
    intro depth fs hfs
    rw [List.cons_append, List.append_assoc]
    exact .left hl (ih _ _ (.right hr hfs))
  | noTypeArguments => exact fun depth fs hfs => hfs
  | moreTypeArguments h hs ih ihs =>
    intro depth fs hfs
    rw [List.append_assoc]
    exact ih _ _ (ihs _ _ hfs)
  | atomCall h ih | typeAtom h ih => exact ih
  | arrow ht ha hu iht ihu =>
    intro depth fs hfs
    rw [← List.cons_append, List.append_assoc]
    exact iht _ _ (.token ha (by decide) (ihu _ _ hfs))
  | context hl hi hn hc hs hr ha hu ihi ihs ihu =>
    intro depth fs hfs
    simp only [List.cons_append, List.append_assoc]
    have hrest := Enclosed.token (congrArg Token.kind ha) (by decide) (ihu _ _ hfs)
    exact .left hl (ihi _ _ (.colon hc (ihs _ _ (.right hr hrest))))
  | _ => trivial

theorem enclosed {t : Ty} {es : List Entry} (h : Derives path (.type t) es) : Enclosed 0 es := by
  have happ := h.encloses 0 [] rfl
  rwa [List.append_nil] at happ

end Derives

/-! ## Names off a tree -/

/-- A type that stands for a name is a name that is applied to nothing. -/
theorem Ty.fieldNames_of_fieldName {t : Ty} {n : Name} (h : t.toExpr.fieldName = .ok n) :
    t.fieldNames = .ok [n] := by
  cases t with
  | func f => cases h
  | app c =>
    rcases c with ⟨fn, args, dots, loc⟩
    cases args with
    | cons x xs => cases fn <;> cases h
    | nil =>
      cases fn <;> cases h
      rfl

theorem Ty.fieldNames_withContext (t shared : Ty) (ns : List Name) (loc : Location) :
    ∃ e, (t.withContext ns shared loc).fieldNames = .error e := by
  cases t <;> exact ⟨_, rfl⟩

def Phrase.NamedBy (path : String) : Phrase → List Entry → Prop
  | .type t, es | .atom t, es =>
    ∀ ns, t.fieldNames = .ok ns → ∃ ds, GroupNames ds es ∧ ns = ds.map (·.name path)
  | .typeCall c, es =>
    ∀ ns, (Ty.app c).fieldNames = .ok ns → ∃ ds, GroupNames ds es ∧ ns = ds.map (·.name path)
  | .typeArgument x, es =>
    ∀ n, x.fieldName = .ok n → ∃ d, GroupNames [d] es ∧ n = d.name path
  | .typeArguments xs, es =>
    ∀ ns : List Name, xs.map Expr.fieldName = ns.map .ok →
      ∃ ds, (∀ d ∈ ds, d.Is .ident) ∧ Row ds es ∧ ns = ds.map (·.name path)
  | _, _ => True

namespace Derives

variable {path : String}

theorem namedBy {ph : Phrase} {es : List Entry} (h : Derives path ph es) :
    ph.NamedBy path es := by
  induction h with
  | @typeCall e args es h hs ihs =>
    intro ns hns
    obtain ⟨c, hc, hmap⟩ := Ty.fieldNames_eq_ok hns
    cases hc
    cases ns with
    | nil => cases hmap
    | cons n ms =>
      obtain ⟨hn, hms⟩ := List.cons.inj hmap
      obtain ⟨ds, hds, hrow, rfl⟩ := ihs ms hms
      cases hn
      exact ⟨e :: ds, .bare (.row (List.forall_mem_cons.2 ⟨h, hds⟩) hrow), rfl⟩
  | @typeArgumentName e h =>
    intro n hn
    cases hn
    exact ⟨e, groupNames_singleton.2 ⟨h, .bare rfl⟩, rfl⟩
  | typeArgumentNested hl h hr ih =>
    intro n hn
    obtain ⟨ds, hds, hmap⟩ := ih [n] (Ty.fieldNames_of_fieldName hn)
    obtain ⟨d, rfl, hd⟩ := List.map_eq_singleton_iff.1 hmap.symm
    exact ⟨d, .nested hl hds hr, hd.symm⟩
  | noTypeArguments =>
    intro ns hns
    cases ns with
    | nil => exact ⟨[], List.forall_mem_nil _, .nil, rfl⟩
    | cons n ms => cases hns
  | moreTypeArguments h hs ih ihs =>
    intro ns hns
    cases ns with
    | nil => cases hns
    | cons n ms =>
      obtain ⟨hn, hms⟩ := List.cons.inj hns
      obtain ⟨d, hd, rfl⟩ := ih n hn
      obtain ⟨ds, hds, hrow, rfl⟩ := ihs ms hms
      obtain ⟨hk, hw⟩ := groupNames_singleton.1 hd
      exact ⟨d :: ds, List.forall_mem_cons.2 ⟨hk, hds⟩, .cons hw hrow, rfl⟩
  | atomCall h ih | typeAtom h ih => exact ih
  | atomNested hl h hr ih =>
    intro ns hns
    obtain ⟨ds, hds, hmap⟩ := ih ns hns
    exact ⟨ds, .nested hl hds hr, hmap⟩
  | arrow ht ha hu iht ihu =>
    intro ns hns
    cases hns
  | @context l c r a inner shared result ms es fs gs hl hi hn hc hs hr ha hu ihi ihs ihu =>
    intro ns hns
    obtain ⟨e, he⟩ := Ty.fieldNames_withContext result shared ms (l.loc path)
    cases he.symm.trans hns
  | _ => trivial

end Derives

/-- One identifier is read as a type that stands for its name. -/
theorem Wrapped.derives (path : String) {d : Entry} {es : List Entry} (hd : d.Is .ident)
    (h : Wrapped (· = [d]) es) :
    ∃ t, Derives path (.type t) es ∧ t.toExpr.fieldName = .ok (d.name path) := by
  induction h with
  | bare h =>
    rw [h]
    exact ⟨_, .typeAtom (.atomCall (.typeCall hd .noTypeArguments)), rfl⟩
  | nested hl h hr ih =>
    obtain ⟨t, ht, hn⟩ := ih
    exact ⟨t, .typeAtom (.atomNested hl ht hr), hn⟩

theorem Row.derives (path : String) {ds es : List Entry} (h : Row ds es)
    (hds : ∀ d ∈ ds, d.Is .ident) :
    ∃ xs, Derives path (.typeArguments xs) es ∧
      xs.mapM Expr.fieldName = .ok (ds.map (·.name path)) := by
  induction h with
  | nil => exact ⟨[], .noTypeArguments, rfl⟩
  | @cons d ds es fs h hs ih =>
    obtain ⟨hd, hds⟩ := List.forall_mem_cons.1 hds
    obtain ⟨xs, hxs, hns⟩ := ih hds
    obtain ⟨x, hx, hn⟩ :
        ∃ x, Derives path (.typeArgument x) es ∧ x.fieldName = .ok (d.name path) := by
      cases h with
      | bare h =>
        rw [h]
        exact ⟨_, .typeArgumentName hd, rfl⟩
      | nested hl h hr =>
        obtain ⟨t, ht, hn⟩ := h.derives path hd
        exact ⟨t.toExpr, .typeArgumentNested hl ht hr, hn⟩
    refine ⟨x :: xs, .moreTypeArguments hx hxs, ?_⟩
    rw [List.mapM_cons, hn, hns]
    rfl

/-- Names are read as a type of which the names can be taken. -/
theorem GroupNames.derives (path : String) {ds es : List Entry} (h : GroupNames ds es) :
    ∃ t, Derives path (.type t) es ∧ t.fieldNames = .ok (ds.map (·.name path)) := by
  induction h with
  | bare h =>
    cases h with
    | row hds hs =>
      obtain ⟨hd, hds⟩ := List.forall_mem_cons.1 hds
      obtain ⟨xs, hxs, hns⟩ := hs.derives path hds
      refine ⟨_, .typeAtom (.atomCall (.typeCall hd hxs)), ?_⟩
      rw [Ty.fieldNames_app, List.mapM_cons, hns]
      rfl
  | nested hl h hr ih =>
    obtain ⟨t, ht, hns⟩ := ih
    exact ⟨t, .typeAtom (.atomNested hl ht hr), hns⟩

/-! ## Groups of a context -/

/-- A type of which the first tokens are a parenthesis and its colon begins with a context,
and between the two are its names. -/
theorem Derives.group {path : String} {t : Ty} {ts es as bs : List Entry} {l c : Entry}
    (h : Derives path (.type t) ts) (hl : l.Is .parenLeft) (hes : Enclosed 0 es)
    (hc : c.Is .colon) (hts : ts ++ as = l :: (es ++ c :: bs)) :
    ∃ ds, ∃ shared result : Ty, ∃ loc, GroupNames ds es ∧
      t = result.withContext (ds.map (·.name path)) shared loc := by
  -- A parenthesis that is closed before a colon comes is none of a context.
  have hatom : ∀ {a fs as}, Derives path (.atom a) fs → fs ++ as ≠ l :: (es ++ c :: bs) := by
    intro a fs as ha heq
    cases ha with
    | atomCall h =>
      cases h with
      | typeCall h hs =>
        cases h.symm.trans ((List.cons.inj heq).1 ▸ hl)
    | atomNested hl h hr =>
      rw [List.cons_append, List.append_assoc] at heq
      obtain ⟨-, hend⟩ := h.enclosed.unique hes (Or.inl hr) (Or.inr hc) (List.cons.inj heq).2
      cases hr.symm.trans (hend ▸ hc)
  cases h with
  | typeAtom h => exact absurd hts (hatom h)
  | arrow ht ha hu =>
    rw [← List.cons_append, List.append_assoc] at hts
    exact absurd hts (hatom ht)
  | context hl' hi hn hc' hs hr ha hu =>
    simp only [List.cons_append, List.append_assoc] at hts
    obtain ⟨rfl, -⟩ := hi.enclosed.unique hes (Or.inr hc') (Or.inr hc) (List.cons.inj hts).2
    obtain ⟨ds, hds, rfl⟩ := hi.namedBy _ hn
    exact ⟨ds, _, _, _, hds, rfl⟩

namespace Parse

/-- What is read of a type behind the colon of a context with the names `ns`. -/
def behindColon (ns : List Name) (loc : Location) : Parse Ty := do
  let shared ← type
  let _ ← expect .parenRight
  contextArrow
  return (← type).withContext ns shared loc

end Parse

/-- The fields that stand in front of a type are those of the first group of its context. -/
theorem Ty.withContext_take (t shared : Ty) (ns : List Name) (loc : Location) :
    ∃ f, t.withContext ns shared loc = .func f ∧
      f.context.take ns.length = ns.map (Field.ofName shared) := by
  cases t with
  | app c => exact ⟨_, rfl, List.take_of_length_le (Nat.le_of_eq (List.length_map _))⟩
  | func f => exact ⟨_, rfl, List.take_left' (List.length_map _)⟩

/-- Where the names of a group stand before the colon, the rest is read for these names. -/
theorem Parse.type_of_group {s u : Parser} {l c : Entry} {es ds : List Entry}
    (hp : Passes s (l :: (es ++ [c])) u) (hl : l.Is .parenLeft) (hc : c.Is .colon)
    (hds : GroupNames ds es) :
    type s = behindColon (ds.map (·.name s.path)) (l.loc s.path) u := by
  obtain ⟨inner, hd, hn⟩ := hds.derives s.path
  obtain ⟨hcur, h₁⟩ := hp.head_plain hl rfl
  obtain ⟨v, h₂, h₃⟩ := h₁.split hd.not_eof
  have hcolon : v.current.Is .colon := h₃.current ▸ hc
  have hinner : type s.advance = .ok inner v :=
    hd.reads s.path_advance h₂ (by rw [hcolon]; rfl)
  have hnames : (MonadExcept.ofExcept inner.fieldNames : Parse (List Name)) v =
      .ok (ds.map (·.name s.path)) v := by
    rw [hn]
    rfl
  rw [congrFun type_eq s]
  unfold typeLevel
  rw [here_bind, kind_bind, hcur, hl]
  dsimp only
  rw [advance_bind, bind_ok hinner, kind_bind, if_pos hcolon]
  unfold context
  rw [bind_ok hnames, bind_ok (expect_ok h₃ hc rfl), show s.here = l.loc s.path from hcur ▸ rfl]
  rfl

/-- A parenthesis with a colon in it begins a context.  If identifiers stand between the two,
with no more than redundant parentheses around them, what comes behind the colon is read for
these names; if anything else does, there is no type; and when a type is read, its first
fields are the identifiers in their order. -/
theorem Parse.type_group {s u : Parser} {l c : Entry} {es : List Entry}
    (hp : Passes s (l :: (es ++ [c])) u) (hl : l.Is .parenLeft) (hes : Enclosed 0 es)
    (hc : c.Is .colon) :
    (∀ ds, GroupNames ds es →
      type s = behindColon (ds.map (·.name s.path)) (l.loc s.path) u) ∧
    ((∀ ds, ¬ GroupNames ds es) → ∃ e v, type s = .error e v) ∧
    ∀ t v, type s = .ok t v → ∃ ds f shared, GroupNames ds es ∧ t = .func f ∧
      f.context.take ds.length = ds.map fun d => Field.ofName shared (d.name s.path) := by
  have hread : ∀ t v, type s = .ok t v → ∃ ds, ∃ shared result : Ty, ∃ loc, GroupNames ds es ∧
      t = result.withContext (ds.map (·.name s.path)) shared loc := by
    intro t v h
    obtain ⟨ts, hts, hd⟩ := yields_type s v t h
    have hbegin : ts ++ v.tokens.entries = l :: (es ++ c :: u.tokens.entries) := by
      rw [← hts.entries, hp.entries]
      simp
    exact hd.group hl hes hc hbegin
  refine ⟨fun ds hds => type_of_group hp hl hc hds, fun hno => ?_, fun t v h => ?_⟩
  · cases h : type s with
    | error e v => exact ⟨e, v, rfl⟩
    | ok t v =>
      obtain ⟨ds, -, -, -, hds, -⟩ := hread t v h
      exact absurd hds (hno ds)
  · obtain ⟨ds, shared, result, loc, hds, rfl⟩ := hread t v h
    obtain ⟨f, hf, htake⟩ :=
      result.withContext_take shared (ds.map (·.name s.path)) loc
    refine ⟨ds, f, shared, hds, hf, ?_⟩
    rw [List.length_map, List.map_map] at htake
    exact htake

theorem Parse.type_group_wrapped : ∃ (u : Parser) (l c : Entry) (es : List Entry),
    Passes (.ofString "(a (b) : T) => a b") (l :: (es ++ [c])) u ∧ l.Is .parenLeft ∧
      Enclosed 0 es ∧ c.Is .colon ∧
      ∃ t v ds f shared, type (.ofString "(a (b) : T) => a b") = .ok t v ∧ GroupNames ds es ∧
        t = .func f ∧ f.context.take ds.length = ds.map fun d =>
          Field.ofName shared (d.name (Parser.ofString "(a (b) : T) => a b").path) := by
  have hkinds : ((Parser.ofString "(a (b) : T) => a b").tokens.entries.take 6).map
      (·.token.kind) = [.parenLeft, .ident, .parenLeft, .ident, .parenRight, .colon] := by
    decide +kernel
  have hok : type.accepts (.ofString "(a (b) : T) => a b") := by decide +kernel
  generalize Parser.ofString "(a (b) : T) => a b" = s at hkinds hok ⊢
  have hlen : (s.tokens.entries.take 6).length = 6 := by
    rw [← List.length_map (·.token.kind), hkinds]
    rfl
  obtain ⟨l, es, htake, hl, hkinds⟩ := List.map_eq_cons_iff.1 hkinds
  obtain ⟨a, es, rfl, ha, hkinds⟩ := List.map_eq_cons_iff.1 hkinds
  obtain ⟨p, es, rfl, hp, hkinds⟩ := List.map_eq_cons_iff.1 hkinds
  obtain ⟨b, es, rfl, hb, hkinds⟩ := List.map_eq_cons_iff.1 hkinds
  obtain ⟨r, es, rfl, hr, hkinds⟩ := List.map_eq_cons_iff.1 hkinds
  obtain ⟨c, rfl, hc⟩ := List.map_eq_singleton_iff.1 hkinds
  have hpass : Passes s (l :: ([a, p, b, r] ++ [c])) (s.passBy 6) := by
    show Passes s [l, a, p, b, r, c] _
    rw [← htake]
    refine ⟨?_, by rw [hlen]⟩
    rw [Parser.tokens_passBy, List.take_append_drop]
  have henclosed : Enclosed 0 [a, p, b, r] :=
    .token ha (by decide) (.left hp (.token hb (by decide) (.right hr rfl)))
  refine ⟨_, _, _, _, hpass, hl, henclosed, hc, ?_⟩
  obtain ⟨t, v, h⟩ := accepts_iff.1 hok
  obtain ⟨ds, f, shared, hgroup⟩ := (type_group hpass hl henclosed hc).2.2 t v h
  exact ⟨t, v, ds, f, shared, h, hgroup⟩

/-- A context is accepted with something else than identifiers in front of its colon. -/
theorem Parse.exists_wrapped_group : ∃ t v,
    type (.ofString "((a) : T) => a") = .ok t v ∧ v.current.Is .eof ∧
      (Parser.ofString "((a) : T) => a").tokens.entries.map (·.token.kind) =
        [.parenLeft, .parenLeft, .ident, .parenRight, .colon, .ident, .parenRight, .symbol,
          .ident] := by
  have hok : type.readsAll (.ofString "((a) : T) => a") := by decide +kernel
  obtain ⟨t, v, h, hv⟩ := readsAll_iff.1 hok
  exact ⟨t, v, h, hv, by decide +kernel⟩

end FrontEnd
