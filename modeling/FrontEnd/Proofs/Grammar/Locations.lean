import FrontEnd.Proofs.Grammar.Accounting
import FrontEnd.Proofs.Tree.Node

/-!
# Where the nodes of a tree stand

Every node has the location of one of the tokens it was read from, and what is written
one behind the other is located in that order.  A context that is put in front of another
one is the only place where nodes share what is below them, so order is kept for whole
subtrees everywhere else (`Placed.apart`) and for the fields of a context by their names.

`File.located` says where the nodes of an accepted file stand in its text.
-/

namespace FrontEnd

namespace Node

/-- The node begins with the token `e`.  A name or a literal is that token. -/
def BeginsAt (path : String) (e : Entry) : Node → Prop
  | name n => n = e.name path
  | integer v loc =>
    e.Is .integer ∧ integer v loc = (Expr.ofInteger (e.integer path)).node
  | float v loc => e.Is .float ∧ float v loc = (Expr.ofFloat (e.float path)).node
  | bad loc =>
    (e.Is .integer ∧ bad loc = (Expr.ofInteger (e.integer path)).node) ∨
      (e.Is .float ∧ bad loc = (Expr.ofFloat (e.float path)).node)
  | m => m.loc = e.loc path

variable {path : String} {e : Entry} {m : Node}

theorem loc_ofInteger (v : Parse.Converted Nat) : (Expr.ofInteger v).node.loc = v.2 := by
  rcases v with ⟨_ | v, loc⟩ <;> rfl

theorem loc_ofFloat (v : Parse.Converted Double) : (Expr.ofFloat v).node.loc = v.2 := by
  rcases v with ⟨_ | v, loc⟩ <;> rfl

theorem BeginsAt.loc (h : m.BeginsAt path e) : m.loc = e.loc path := by
  cases m with
  | name n =>
    rw [show n = e.name path from h]
    rfl
  | integer v l =>
    rw [h.2, loc_ofInteger]
    rfl
  | float v l =>
    rw [h.2, loc_ofFloat]
    rfl
  | bad l =>
    rcases h with h | h
    · rw [h.2, loc_ofInteger]
      rfl
    · rw [h.2, loc_ofFloat]
      rfl
  | _ => exact h

theorem BeginsAt.pos (h : m.BeginsAt path e) : m.pos = e.pos :=
  congrArg Location.position h.loc

/-- What a node is read from and how the nodes below it stand. -/
structure Sound (path : String) (es : List Entry) (m : Node) : Prop where
  token : ∃ e ∈ es, m.BeginsAt path e
  children : ∀ k ∈ m.children, m.pos ≤ k.pos
  rows : ∀ row ∈ m.rows, row.Pairwise (·.pos < ·.pos)
  apart : ∀ c, m = .call c → m.children.Pairwise Precedes

theorem Sound.mono {es fs : List Entry} (h : m.Sound path es) (hs : es ⊆ fs) :
    m.Sound path fs := by
  obtain ⟨e, he, hm⟩ := h.token
  exact ⟨⟨e, hs he, hm⟩, h.children, h.rows, h.apart⟩

end Node

/-- The nodes `ms` are read from the tokens `es`, one behind the other. -/
structure Placed (path : String) (es : List Entry) (ms : List Node) : Prop where
  sound : ∀ m ∈ ms, ∀ k, m.Within k → k.Sound path es
  apart : ms.Pairwise Node.Precedes

theorem InOrder.sublist {es fs : List Entry} (h : InOrder fs) (hs : es.Sublist fs) : InOrder es :=
  List.Pairwise.sublist hs h

theorem InOrder.first_le {e f : Entry} {es : List Entry} (h : InOrder (e :: es))
    (hf : f ∈ e :: es) : e.pos ≤ f.pos := by
  rcases List.mem_cons.1 hf with rfl | hf
  · exact Position.le_refl _
  · exact Position.le_of_lt ((List.pairwise_cons.1 h).1 f hf)

namespace Placed

variable {path : String} {es fs : List Entry} {e : Entry} {m : Node} {ms ns : List Node}

theorem nil : Placed path es [] :=
  ⟨List.forall_mem_nil _, .nil⟩

theorem mono (h : Placed path es ms) (hs : es ⊆ fs) : Placed path fs ms :=
  ⟨fun m hm k hk => (h.sound m hm k hk).mono hs, h.apart⟩

/-- What is read from earlier tokens precedes what is read from later ones. -/
theorem precedes (ho : InOrder (es ++ fs)) (hm : Placed path es ms) (hn : Placed path fs ns) :
    ∀ m ∈ ms, ∀ n ∈ ns, m.Precedes n := by
  intro m hmem n hnem j k hj hk
  obtain ⟨e, he, hje⟩ := (hm.sound m hmem j hj).token
  obtain ⟨f, hf, hkf⟩ := (hn.sound n hnem k hk).token
  rw [hje.pos, hkf.pos]
  exact (List.pairwise_append.1 ho).2.2 e he f hf

theorem append (ho : InOrder (es ++ fs)) (hm : Placed path es ms) (hn : Placed path fs ns) :
    Placed path (es ++ fs) (ms ++ ns) := by
  refine ⟨fun m h => ?_, List.pairwise_append.2 ⟨hm.apart, hn.apart, hm.precedes ho hn⟩⟩
  rcases List.mem_append.1 h with h | h
  · exact (hm.mono (List.subset_append_left es fs)).sound m h
  · exact (hn.mono (List.subset_append_right es fs)).sound m h

theorem cons (ho : InOrder (e :: fs)) (hm : Placed path [e] ms) (hn : Placed path fs ns) :
    Placed path (e :: fs) (ms ++ ns) :=
  append ho hm hn

theorem first_le {f : Entry} (ho : InOrder (f :: es)) (h : Placed path (f :: es) ms) :
    ∀ m ∈ ms, f.pos ≤ m.pos := by
  intro m hm
  obtain ⟨e, he, hme⟩ := (h.sound m hm m .self).token
  rw [hme.pos]
  exact ho.first_le he

theorem single (h : m.Sound path es)
    (hk : ∀ k ∈ m.children, ∀ j, k.Within j → j.Sound path es) : Placed path es [m] := by
  refine ⟨fun n hn j hj => ?_, List.pairwise_singleton _ _⟩
  obtain rfl := List.mem_singleton.1 hn
  rcases Node.within_iff.1 hj with rfl | ⟨k, hmem, hkj⟩
  · exact h
  · exact hk k hmem j hkj

/-- A node over others that stand one behind the other. -/
theorem node (hk : Placed path es m.children) (he : e ∈ es) (hm : m.BeginsAt path e)
    (hfirst : ∀ k ∈ m.children, m.pos ≤ k.pos)
    (hrows : ∀ row ∈ m.rows, row.Sublist m.children) : Placed path es [m] := by
  refine single ⟨⟨e, he, hm⟩, hfirst, fun row hrow => ?_, fun _ _ => hk.apart⟩ hk.sound
  exact (hk.apart.imp Node.Precedes.pos_lt).sublist (hrows row hrow)

theorem leaf (hm : m.BeginsAt path e) (hc : m.children = []) (hr : m.rows = []) :
    Placed path [e] [m] := by
  refine node (e := e) ?_ List.mem_cons_self hm ?_ ?_
  · rw [hc]
    exact nil
  · rw [hc]
    exact List.forall_mem_nil _
  · rw [hr]
    exact List.forall_mem_nil _

theorem name (path : String) (e : Entry) : Placed path [e] [.name (e.name path)] :=
  leaf rfl rfl rfl

theorem integer (h : e.Is .integer) :
    Placed path [e] [(Expr.ofInteger (e.integer path)).node] := by
  generalize hv : e.integer path = v
  rcases v with ⟨_ | v, loc⟩
  · exact leaf (Or.inl ⟨h, by rw [hv]; rfl⟩) rfl rfl
  · exact leaf ⟨h, by rw [hv]; rfl⟩ rfl rfl

theorem float (h : e.Is .float) : Placed path [e] [(Expr.ofFloat (e.float path)).node] := by
  generalize hv : e.float path = v
  rcases v with ⟨_ | v, loc⟩
  · exact leaf (Or.inr ⟨h, by rw [hv]; rfl⟩) rfl rfl
  · exact leaf ⟨h, by rw [hv]; rfl⟩ rfl rfl

theorem reference (path : String) (e : Entry) :
    Placed path [e] [.call (e.name path).toCall] := by
  refine node (e := e) (name path e) List.mem_cons_self rfl ?_ ?_
  · intro k hk
    obtain rfl := List.mem_singleton.1 hk
    exact Position.le_refl _
  · intro row hrow
    obtain rfl := List.mem_singleton.1 hrow
    exact List.Sublist.refl _

/-- An operator in parentheses stands where the operator does. -/
theorem operator {l r : Entry} (h : Placed path [e] ms) : Placed path [l, e, r] ms :=
  h.mono (by simp)

theorem nested {l r : Entry} (h : Placed path es ms) : Placed path (l :: (es ++ [r])) ms :=
  h.mono (by simp)

theorem call {fn : Expr} {args : List Expr} (ho : InOrder (e :: es))
    (hm : Placed path (e :: es) (fn.node :: args.map Expr.node)) :
    Placed path (e :: es) [.call ⟨fn, args, false, e.loc path⟩] := by
  refine node (e := e) hm List.mem_cons_self rfl (first_le ho hm) ?_
  intro row hrow
  obtain rfl := List.mem_singleton.1 hrow
  exact List.Sublist.refl _

theorem applied {fn : Expr} {args : List Expr} (ho : InOrder (e :: es))
    (hm : Placed path (e :: es) (fn.node :: args.map Expr.node)) :
    Placed path (e :: es) [.call (.applied fn args (e.loc path))] := by
  unfold Call.applied
  split
  · exact hm
  · exact call ho hm

end Placed

/-! ## Contexts -/

namespace Node

theorem Within.trans {m n k : Node} (h : m.Within n) (h' : n.Within k) : m.Within k := by
  induction h' with
  | self => exact h
  | child _ hk ih => exact ih.child hk

theorem Precedes.mono {m n m' n' : Node} (h : m.Precedes n) (hm : m.Within m')
    (hn : n.Within n') : m'.Precedes n' :=
  fun j k hj hk => h j k (hm.trans hj) (hn.trans hk)

end Node

theorem Expr.loc_node (x : Expr) : x.node.loc = x.loc := by
  cases x <;> rfl

theorem Expr.fieldName_eq_error {x : Expr} {e : SyntaxError} (h : x.fieldName = .error e) :
    ∃ m, x.node.Within m ∧ e = .invalidField m.loc := by
  unfold fieldName at h
  split at h
  · cases h
  · cases h
  · next fn _ _ _ =>
    cases h
    exact ⟨fn.node, .child .self List.mem_cons_self, by rw [loc_node]⟩
  · cases h
    exact ⟨x.node, .self, by rw [loc_node]⟩

/-- A type that is not the names of a context has a part that is to blame. -/
theorem Ty.fieldNames_eq_error {t : Ty} {e : SyntaxError} (h : t.fieldNames = .error e) :
    ∃ m, t.node.Within m ∧ e = .invalidField m.loc := by
  cases t with
  | func f =>
    cases h
    exact ⟨.func f, .self, rfl⟩
  | app c =>
    rw [fieldNames_app] at h
    obtain ⟨x, hx, he⟩ := exists_of_mapM_eq_error h
    obtain ⟨m, hm, rfl⟩ := Expr.fieldName_eq_error he
    have hchild : x.node ∈ (Node.call c).children := List.mem_map_of_mem (f := Expr.node) hx
    exact ⟨m, (Node.Within.self.child hchild).trans hm, rfl⟩

theorem Expr.within_of_fieldName {x : Expr} {n : Name} (h : x.fieldName = .ok n) :
    x.node.Within (.name n) := by
  unfold fieldName at h
  split at h <;> cases h
  · exact .self
  · exact .child .self List.mem_cons_self

/-- The names of a context are in the tree that they were read as, in their order. -/
theorem Expr.precedes_fieldNames {xs : List Expr} {ns : List Name}
    (h : xs.map fieldName = ns.map .ok) (ho : (xs.map node).Pairwise Node.Precedes) :
    (∀ n ∈ ns, ∃ x ∈ xs, x.node.Within (.name n)) ∧
      (ns.map Node.name).Pairwise Node.Precedes := by
  induction xs generalizing ns with
  | nil =>
    cases ns with
    | nil => exact ⟨List.forall_mem_nil _, .nil⟩
    | cons n ns => cases h
  | cons x xs ih =>
    cases ns with
    | nil => cases h
    | cons n ns =>
      obtain ⟨hx, hxs⟩ := List.cons.inj h
      obtain ⟨hfirst, hrest⟩ := List.pairwise_cons.1 ho
      obtain ⟨hmem, hns⟩ := ih hxs hrest
      have hn : x.node.Within (.name n) := within_of_fieldName hx
      constructor
      · intro k hk
        rcases List.mem_cons.1 hk with rfl | hk
        · exact ⟨x, List.mem_cons_self, hn⟩
        · obtain ⟨y, hy, hw⟩ := hmem k hk
          exact ⟨y, List.mem_cons_of_mem _ hy, hw⟩
      · refine List.pairwise_cons.2 ⟨fun k hk => ?_, hns⟩
        obtain ⟨a, ha, rfl⟩ := List.mem_map.1 hk
        obtain ⟨y, hy, hw⟩ := hmem a ha
        exact (hfirst y.node (List.mem_map_of_mem hy)).mono hn hw

namespace Placed

variable {path : String} {es fs gs : List Entry}

theorem fieldNames {t : Ty} {ns : List Name} (h : Placed path es [t.node])
    (hn : t.fieldNames = .ok ns) : Placed path es (ns.map .name) := by
  obtain ⟨c, rfl, hns⟩ := Ty.fieldNames_eq_ok hn
  have hc : (Node.call c).Sound path es := h.sound _ List.mem_cons_self _ .self
  obtain ⟨hmem, hapart⟩ := Expr.precedes_fieldNames hns (hc.apart c rfl)
  refine ⟨fun m hm k hk => ?_, hapart⟩
  obtain ⟨n, hn, rfl⟩ := List.mem_map.1 hm
  obtain ⟨x, hx, hw⟩ := hmem n hn
  have hchild : x.node ∈ (Node.call c).children := List.mem_map_of_mem (f := Expr.node) hx
  exact h.sound _ List.mem_cons_self k ((Node.Within.self.child hchild).trans (hw.trans hk))

/-- A field stands where its name does, which is before the type it shares with others. -/
theorem field {n : Name} {shared : Ty} (hn : (Node.name n).Sound path es)
    (hs : Placed path es [shared.node]) (hlt : n.loc.position < shared.node.pos) :
    Placed path es [.field (.ofName shared n)] := by
  obtain ⟨e, he, hne⟩ := hn.token
  refine single ⟨⟨e, he, hne.loc⟩, ?_, List.forall_mem_nil _, nofun⟩ ?_
  · intro k hk
    rcases List.mem_cons.1 hk with rfl | hk
    · exact Position.le_refl _
    · obtain rfl := List.mem_singleton.1 hk
      exact Position.le_of_lt hlt
  · intro k hk j hj
    rcases List.mem_cons.1 hk with rfl | hk
    · rcases Node.within_iff.1 hj with rfl | ⟨i, hi, -⟩
      · exact hn
      · cases hi
    · exact hs.sound k hk j hj

/-- A field is where it was, however many are put in front of it. -/
theorem behind {g : Field} (h : Placed path es [.field g]) (n : Nat) :
    Placed path es [.field (g.behind n)] := by
  have hg : (Node.field g).Sound path es := h.sound _ List.mem_cons_self _ .self
  refine single ⟨hg.token, hg.children, List.forall_mem_nil _, nofun⟩ fun k hk j hj => ?_
  exact h.sound _ List.mem_cons_self j (Node.within_iff.2 (Or.inr ⟨k, hk, hj⟩))

theorem func {e : Entry} {context : List Field} {types : List Ty} (ho : InOrder (e :: es))
    (hc : ∀ g ∈ context, Placed path (e :: es) [.field g])
    (ht : ∀ t ∈ types, Placed path (e :: es) [t.node])
    (hcontext : (context.map Node.field).Pairwise (·.pos < ·.pos))
    (htypes : (types.map Ty.node).Pairwise (·.pos < ·.pos)) :
    Placed path (e :: es) [.func ⟨context, types, e.loc path⟩] := by
  have hall : ∀ k ∈ (Node.func ⟨context, types, e.loc path⟩).children,
      Placed path (e :: es) [k] := by
    intro k hk
    rcases List.mem_append.1 hk with hk | hk
    · obtain ⟨g, hg, rfl⟩ := List.mem_map.1 hk
      exact hc g hg
    · obtain ⟨t, ht', rfl⟩ := List.mem_map.1 hk
      exact ht t ht'
  refine single ⟨⟨e, List.mem_cons_self, rfl⟩, fun k hk => ?_, fun row hrow => ?_, nofun⟩
    fun k hk => (hall k hk).sound k List.mem_cons_self
  · exact first_le ho (hall k hk) k List.mem_cons_self
  · rcases List.mem_cons.1 hrow with rfl | hrow
    · exact hcontext
    · obtain rfl := List.mem_singleton.1 hrow
      exact htypes

/-- The types and the context of a function type are in order. -/
theorem of_func {f : FuncTy} (h : Placed path es [.func f]) :
    (∀ g ∈ f.context, Placed path es [.field g]) ∧ (∀ t ∈ f.types, Placed path es [t.node]) ∧
    (f.context.map Node.field).Pairwise (·.pos < ·.pos) ∧
    (f.types.map Ty.node).Pairwise (·.pos < ·.pos) := by
  have hf : (Node.func f).Sound path es := h.sound _ List.mem_cons_self _ .self
  have hchild : ∀ k ∈ (Node.func f).children, Placed path es [k] := by
    intro k hk
    refine ⟨fun m hm j hj => ?_, List.pairwise_singleton _ _⟩
    obtain rfl := List.mem_singleton.1 hm
    exact h.sound _ List.mem_cons_self j (Node.within_iff.2 (Or.inr ⟨m, hk, hj⟩))
  refine ⟨fun g hg => hchild _ ?_, fun t ht => hchild _ ?_, hf.rows _ (by simp [Node.rows]),
    hf.rows _ (by simp [Node.rows])⟩
  · exact List.mem_append_left _ (List.mem_map_of_mem hg)
  · exact List.mem_append_right _ (List.mem_map_of_mem ht)

theorem withContext {l c r a : Entry} {shared result : Ty} {ns : List Name}
    (ho : InOrder (l :: (es ++ c :: (fs ++ r :: a :: gs)))) (hn : Placed path es (ns.map .name))
    (hs : Placed path fs [shared.node]) (hu : Placed path gs [result.node]) :
    Placed path (l :: (es ++ c :: (fs ++ r :: a :: gs)))
      [(result.withContext ns shared (l.loc path)).node] := by
  have hall : InOrder (es ++ c :: (fs ++ r :: a :: gs)) := (List.pairwise_cons.1 ho).2
  have hes : es ⊆ l :: (es ++ c :: (fs ++ r :: a :: gs)) := by
    intro e he
    simp [he]
  have hfs : fs ⊆ l :: (es ++ c :: (fs ++ r :: a :: gs)) := by
    intro e he
    simp [he]
  have hgs : gs ⊆ l :: (es ++ c :: (fs ++ r :: a :: gs)) := by
    intro e he
    simp [he]
  have hnames : ∀ n ∈ ns, (Node.name n).Sound path es := fun n hn' =>
    hn.sound _ (List.mem_map_of_mem hn') _ .self
  have hbefore : ∀ n ∈ ns, n.loc.position < shared.node.pos := fun n hn' =>
    (precedes (hall.sublist (by simp)) hn hs _ (List.mem_map_of_mem hn') _
      List.mem_cons_self).pos_lt
  have hfields : ∀ g ∈ ns.map (Field.ofName shared),
      Placed path (l :: (es ++ c :: (fs ++ r :: a :: gs))) [.field g] := by
    intro g hg
    obtain ⟨n, hn', rfl⟩ := List.mem_map.1 hg
    exact field ((hnames n hn').mono hes) (hs.mono hfs) (hbefore n hn')
  have hrow : ((ns.map (Field.ofName shared)).map Node.field).Pairwise (·.pos < ·.pos) := by
    simp only [List.pairwise_map]
    exact (List.pairwise_map.1 hn.apart).imp Node.Precedes.pos_lt
  cases result with
  | app d =>
    refine func ho hfields (fun t ht => ?_) hrow (List.pairwise_singleton _ _)
    obtain rfl := List.mem_singleton.1 ht
    exact hu.mono hgs
  | func f =>
    obtain ⟨hcontext, htypes, hcrow, htrow⟩ := of_func hu
    refine func ho (fun g hg => ?_) (fun t ht => (htypes t ht).mono hgs) ?_ htrow
    · rcases List.mem_append.1 hg with hg | hg
      · exact hfields g hg
      · obtain ⟨k, hk, rfl⟩ := List.mem_map.1 hg
        exact ((hcontext k hk).mono hgs).behind _
    · rw [List.map_append]
      refine List.pairwise_append.2 ⟨hrow, ?_, fun k hk j hj => ?_⟩
      · simp only [List.pairwise_map] at hcrow ⊢
        exact hcrow
      · simp only [List.map_map, List.mem_map, Function.comp] at hk hj
        obtain ⟨n, hn', rfl⟩ := hk
        obtain ⟨g, hg, rfl⟩ := hj
        have hrest : gs.Sublist (c :: (fs ++ r :: a :: gs)) := by
          simpa using List.sublist_append_right (c :: (fs ++ [r, a])) gs
        have hsub := hrest.append_left es
        have hlt := precedes (hall.sublist hsub) hn (hcontext g hg) _
          (List.mem_map_of_mem hn') _ List.mem_cons_self
        exact hlt.pos_lt

end Placed

/-! ## Phrases -/

def Phrase.roots : Phrase → List Node
  | expr x | head x | argument x | typeArgument x => [x.node]
  | arguments xs | typeArguments xs => xs.map Expr.node
  | call c | typeCall c => [.call c]
  | type t | atom t => [t.node]
  | pattern p => [p.node]
  | patterns ps => ps.map Pattern.node
  | declName n => [.name n]
  | names ns => ns.map .name
  | signature s => [.signature s]
  | members ss => ss.map .signature
  | block b => (Node.block b).children
  | decl d => [d.node]
  | decls ds => ds.map Decl.node

namespace Derives

variable {path : String}

theorem block_placed {w : Entry} {b : Block} {es : List Entry} (ho : InOrder (w :: es))
    (hb : b.loc = w.loc path) (h : Placed path es (Node.block b).children) :
    Placed path (w :: es) [.block b] := by
  have hm : Placed path (w :: es) (Node.block b).children :=
    h.mono (List.subset_cons_self w es)
  refine .node hm List.mem_cons_self hb ?_ ?_
  · intro k hk
    have hw : (Node.block b).pos = w.pos := congrArg Location.position hb
    rw [hw]
    exact Placed.first_le ho hm k hk
  · intro row hrow
    obtain rfl := List.mem_singleton.1 hrow
    exact (List.sublist_append_right _ _).cons _

/-- A node whose first part is its name stands where the name does. -/
theorem named_placed {n : Name} {m : Node} {ms : List Node} {es fs : List Entry}
    (ho : InOrder (es ++ fs)) (hn : Placed path es [.name n]) (hs : Placed path fs ms)
    (hchildren : m.children = .name n :: ms) (hloc : m.loc = n.loc)
    (hrows : ∀ row ∈ m.rows, row.Sublist ms)
    (hbegin : ∀ e, m.loc = e.loc path → m.BeginsAt path e) : Placed path (es ++ fs) [m] := by
  have hm : Placed path (es ++ fs) m.children := by
    rw [hchildren]
    exact .append ho hn hs
  obtain ⟨e, he, hne⟩ := (hn.sound _ List.mem_cons_self _ .self).token
  refine .node hm (List.mem_append_left fs he) (hbegin e (hloc.trans hne.loc)) ?_ ?_
  · intro k hk
    have hpos : m.pos = (Node.name n).pos := congrArg Location.position hloc
    rw [hpos]
    rw [hchildren] at hm hk
    rcases List.mem_cons.1 hk with rfl | hk
    · exact Position.le_refl _
    · exact Position.le_of_lt ((List.pairwise_cons.1 hm.apart).1 k hk).pos_lt
  · intro row hrow
    rw [hchildren]
    exact (hrows row hrow).cons _

theorem placed_arrow {e a : Entry} {t u : Ty} {es fs : List Entry}
    (ho : InOrder (e :: (es ++ a :: fs))) (ht : Placed path (e :: es) [t.node])
    (hu : Placed path fs [u.node]) :
    Placed path (e :: (es ++ a :: fs)) [.func ⟨[], [t, u], e.loc path⟩] := by
  have hsub : ((e :: es) ++ fs).Sublist (e :: (es ++ a :: fs)) := by simp
  have hm := (Placed.append (ho.sublist hsub) ht hu).mono hsub.subset
  refine .func ho (List.forall_mem_nil _) (fun v hv => ?_) .nil
    (hm.apart.imp Node.Precedes.pos_lt)
  refine ⟨fun k hk => hm.sound k ?_, List.pairwise_singleton _ _⟩
  obtain rfl := List.mem_singleton.1 hk
  exact List.mem_map_of_mem (f := Ty.node) hv

/-- The three types that a context and what it is in front of are made of. -/
theorem inOrder_context {l c r a : Entry} {es fs gs : List Entry}
    (ho : InOrder (l :: (es ++ c :: (fs ++ r :: a :: gs)))) :
    InOrder es ∧ InOrder fs ∧ InOrder gs := by
  have hrest := (List.pairwise_append.1 (List.pairwise_cons.1 ho).2).2.1
  have hlast := List.pairwise_append.1 (List.pairwise_cons.1 hrest).2
  exact ⟨ho.sublist (by simp), hlast.1, hlast.2.1.sublist (by simp)⟩

theorem placed_signature {c : Entry} {n : Name} {t : Ty} {es fs : List Entry}
    (ho : InOrder (es ++ c :: fs)) (hn : Placed path es [.name n])
    (ht : Placed path fs [t.node]) :
    Placed path (es ++ c :: fs) [.signature ⟨n, t, n.loc⟩] := by
  have hsub : (es ++ fs).Sublist (es ++ c :: fs) := by simp
  exact .mono (named_placed (ho.sublist hsub) hn ht rfl rfl (List.forall_mem_nil _)
    fun _ h => h) hsub.subset

theorem placed_blockParts {e l r : Entry} {ns : List Name} {ss : List Signature}
    {es fs : List Entry} (ho : InOrder (e :: (es ++ l :: (fs ++ [r]))))
    (hns : Placed path es (ns.map .name)) (hss : Placed path fs (ss.map .signature)) :
    Placed path (e :: (es ++ l :: (fs ++ [r])))
      ([.name (e.name path)] ++ (ns.map .name ++ ss.map .signature)) := by
  have hrest : (es ++ fs).Sublist (es ++ l :: (fs ++ [r])) := by simp
  have hsub : ([e] ++ (es ++ fs)).Sublist (e :: (es ++ l :: (fs ++ [r]))) := hrest.cons_cons e
  have ho' : InOrder (es ++ fs) := (List.pairwise_cons.1 (ho.sublist hsub)).2
  exact .mono (.append (ho.sublist hsub) (.name path e) (.append ho' hns hss)) hsub.subset

theorem placed_function {a : Entry} {n : Name} {ps : List Pattern} {x : Expr}
    {es fs gs : List Entry} (ho : InOrder (es ++ (fs ++ a :: gs)))
    (hn : Placed path es [.name n]) (hp : Placed path fs (ps.map Pattern.node))
    (hx : Placed path gs [x.node]) :
    Placed path (es ++ (fs ++ a :: gs)) [.function ⟨n, none, ps, some x, n.loc⟩] := by
  have hrest : (fs ++ gs).Sublist (fs ++ a :: gs) := by simp
  have hsub : (es ++ (fs ++ gs)).Sublist (es ++ (fs ++ a :: gs)) := hrest.append_left es
  have ho' : InOrder (fs ++ gs) := (List.pairwise_append.1 (ho.sublist hsub)).2.1
  refine .mono (named_placed (ho.sublist hsub) hn (.append ho' hp hx) rfl rfl
    (fun row hrow => ?_) fun _ h => h) hsub.subset
  obtain rfl := List.mem_singleton.1 hrow
  exact List.Sublist.refl _

theorem placed_behind {ms ks : List Node} {es fs gs : List Entry}
    (ho : InOrder (es ++ (fs ++ gs))) (hm : InOrder fs → Placed path fs ms)
    (hk : InOrder gs → Placed path gs ks) : Placed path (es ++ (fs ++ gs)) (ms ++ ks) := by
  have ho' : InOrder (fs ++ gs) := ho.sublist (List.sublist_append_right es _)
  exact .mono (.append ho' (hm (ho'.sublist (by simp))) (hk (ho'.sublist (by simp))))
    (List.subset_append_right es _)

/-- The nodes of a phrase stand where its tokens do, in their order. -/
theorem placed {ph : Phrase} {es : List Entry} (h : Derives path ph es) (ho : InOrder es) :
    Placed path es ph.roots := by
  induction h with
  | integer h | argumentInteger h => exact .integer h
  | float h | argumentFloat h => exact .float h
  | patternInteger h =>
    rw [Phrase.roots, Pattern.node_ofInteger]
    exact .integer h
  | patternFloat h =>
    rw [Phrase.roots, Pattern.node_ofFloat]
    exact .float h
  | application h ih | atomCall h ih | typeAtom h ih | declSignature h ih => exact ih ho
  | headName h | patternName h | declIdent h => exact .name path _
  | headOperator hl ho' hr | declOperator hl ho' hr => exact .operator (.name path _)
  | argumentName h | typeArgumentName h => exact .reference path _
  | argumentOperator hl ho' hr => exact .operator (.reference path _)
  | headNested hl h hr ih | argumentNested hl h hr ih | atomNested hl h hr ih
  | patternCall hl h hr ih => exact .nested (ih (ho.sublist (by simp)))
  | typeArgumentNested hl h hr ih =>
    rw [Phrase.roots, Ty.node_toExpr]
    exact .nested (ih (ho.sublist (by simp)))
  | noArguments | noTypeArguments | noPatterns | noNames | noMembers h | noDecls h => exact .nil
  | moreArguments h hs ih ihs | moreTypeArguments h hs ih ihs | morePatterns h hs ih ihs =>
    exact .append ho (ih (ho.sublist (by simp))) (ihs (ho.sublist (by simp)))
  | moreNames h hs ihs => exact .cons ho (.name path _) (ihs (ho.sublist (by simp)))
  | call h hs ih ihs =>
    exact .applied ho
      (Placed.append ho (ih (ho.sublist (by simp))) (ihs (ho.sublist (by simp))))
  | typeCall h hs ihs =>
    exact .call ho (Placed.cons ho (.name path _) (ihs (ho.sublist (by simp))))
  | arrow ht ha hu iht ihu =>
    exact placed_arrow ho (iht (ho.sublist (by simp)))
      (ihu ((List.pairwise_append.1 (List.pairwise_cons.1 ho).2).2.1.sublist (by simp)))
  | context hl hi hn hc hs hr ha hu ihi ihs ihu =>
    obtain ⟨hinner, hshared, hresult⟩ := inOrder_context ho
    exact .withContext ho ((ihi hinner).fieldNames hn) (ihs hshared) (ihu hresult)
  | signature hn hc ht ihn iht =>
    exact placed_signature ho (ihn (ho.sublist (by simp))) (iht (ho.sublist (by simp)))
  | moreMembers h hs hss ihs ihss => exact placed_behind ho ihs ihss
  | moreDecls h hd hds ihd ihds => exact placed_behind ho ihd ihds
  | block h hns hl hss hr ihns ihss =>
    have hrest := List.pairwise_append.1 (List.pairwise_cons.1 ho).2
    exact placed_blockParts ho (ihns hrest.1) (ihss (hrest.2.1.sublist (by simp)))
  | function hn hp ha hx ihn ihp ihx =>
    have hrest := List.pairwise_append.1 ho
    have hbody := List.pairwise_append.1 hrest.2.1
    exact placed_function ho (ihn hrest.1) (ihp hbody.1) (ihx (hbody.2.1.sublist (by simp)))
  | enumeration hw h hb ih | sealed hw h hb ih =>
    exact block_placed ho hb (ih (ho.sublist (by simp)))

end Derives

/-! ## Files -/

/-- The text has the literal `m` where the literal says it is: an integer or a float whose
conversion is `m`. -/
def Text.HasLiteral (t : Text) (path : String) (m : Node) : Prop :=
  ∃ e ∈ (Tokens.ofText t).entries, m.loc = e.loc path ∧ t.Shows e.pos e.token.lexeme ∧
    ((e.Is .integer ∧ m = (Expr.ofInteger (e.integer path)).node) ∨
      (e.Is .float ∧ m = (Expr.ofFloat (e.float path)).node))

/-- The nodes of the file `f` stand in the text `t` where they say they do, and as they
follow each other. -/
structure File.Located (path : String) (t : Text) (f : File) : Prop where
  names : ∀ n, f.Contains (.name n) → t.Shows n.loc.position n.value
  literals : ∀ m, f.Contains m → m.isLiteral = true → t.HasLiteral path m
  below : ∀ m n, f.Contains m → m.Within n → m.pos ≤ n.pos
  rows : ∀ m, f.Contains m → ∀ row ∈ m.rows, row.Pairwise (·.pos < ·.pos)
  decls : (f.decls.map Decl.node).Pairwise (·.pos < ·.pos)
  bounds : ∀ m, f.Contains m → f.loc.position ≤ m.pos ∧ m.pos < f.eof.position
  path : f.loc.path = path ∧ f.eof.path = path ∧ ∀ m, f.Contains m → m.loc.path = path

namespace Node

theorem pos_le_within {path : String} {es : List Entry} {m n : Node}
    (hm : ∀ k, m.Within k → k.Sound path es) (h : m.Within n) : m.pos ≤ n.pos := by
  induction h with
  | self => exact Position.le_refl _
  | @child j k hj hk ih => exact Position.le_trans ih ((hm j hj).children k hk)

theorem BeginsAt.literal {path : String} {e : Entry} {m : Node} (h : m.BeginsAt path e)
    (hm : m.isLiteral = true) :
    (e.Is .integer ∧ m = (Expr.ofInteger (e.integer path)).node) ∨
      (e.Is .float ∧ m = (Expr.ofFloat (e.float path)).node) := by
  cases m with
  | integer v loc => exact Or.inl h
  | float v loc => exact Or.inr h
  | bad loc => exact h
  | _ => cases hm

end Node

theorem Tokens.current_le (x : Lexer) :
    ∀ e ∈ (ofLexer x).entries, (ofLexer x).current.pos ≤ e.pos := by
  intro e he
  have ho := inOrder x
  unfold current
  cases hes : (ofLexer x).entries with
  | nil => simp [hes] at he
  | cons d ds =>
    rw [hes] at ho he
    exact ho.first_le he

theorem File.sound {path : String} {reads : List Read} {f : File} {log : List Diagnostic}
    (h : File.ofReads path reads = (.ok f, log)) {m : Node} (hm : f.Contains m) :
    m.Sound path (Tokens.ofText (.ofReads reads)).entries := by
  obtain ⟨hd, hf⟩ := file_ofReads h
  have hroots : f.roots = f.decls.map Decl.node := by
    rw [hf]
    rfl
  obtain ⟨r, hr, hm⟩ := hm
  rw [hroots] at hr
  exact (hd.placed (Tokens.inOrder _)).sound r hr m hm

/-- The trees of an accepted text say where they were written. -/
theorem File.located {path : String} {reads : List Read} {f : File} {log : List Diagnostic}
    (h : File.ofReads path reads = (.ok f, log)) : f.Located path (.ofReads reads) := by
  obtain ⟨hd, hf⟩ := file_ofReads h
  have hbegin : ∀ m, f.Contains m →
      ∃ e ∈ (Tokens.ofText (.ofReads reads)).entries, m.BeginsAt path e :=
    fun m hm => (sound h hm).token
  have hshows := Tokens.shows (Lexer.standsIn_ofText (.ofReads reads))
  refine ⟨fun n hn => ?_, fun m hm hl => ?_, fun m n hm hn => ?_, fun m hm => (sound h hm).rows,
    (hd.placed (Tokens.inOrder _)).apart.imp Node.Precedes.pos_lt, fun m hm => ?_, ?_⟩
  · obtain ⟨e, he, hne⟩ := hbegin _ hn
    obtain rfl : n = e.name path := hne
    exact hshows e he
  · obtain ⟨e, he, hme⟩ := hbegin m hm
    exact ⟨e, he, hme.loc, hshows e he, hme.literal hl⟩
  · obtain ⟨r, hr, hrm⟩ := hm
    exact Node.pos_le_within (fun k hk => sound h ⟨r, hr, hrm.trans hk⟩) hn
  · obtain ⟨e, he, hme⟩ := hbegin m hm
    rw [hf, hme.pos]
    exact ⟨Tokens.current_le _ e he, (Tokens.pos_bounds _ e he).2⟩
  · rw [hf]
    refine ⟨rfl, rfl, fun m hm => ?_⟩
    obtain ⟨e, -, hme⟩ := hbegin m (hf ▸ hm)
    rw [hme.loc]
    rfl

theorem File.located_shared : ∃ f log,
    File.ofReads "a" [.bytes "(+) : (a\n é : b) => a -> é\r\nf (g x) = ((x)) 1e999".toUTF8] =
      (.ok f, log) ∧ f.decls.length = 2 ∧
    f.Located "a"
      (.ofReads [.bytes "(+) : (a\n é : b) => a -> é\r\nf (g x) = ((x)) 1e999".toUTF8]) := by
  have hok : (File.ofReads "a" [.bytes
      "(+) : (a\n é : b) => a -> é\r\nf (g x) = ((x)) 1e999".toUTF8]).1.toOption.map
        (·.decls.length) = some 2 := by
    decide +kernel
  rcases hf : File.ofReads "a" [.bytes
    "(+) : (a\n é : b) => a -> é\r\nf (g x) = ((x)) 1e999".toUTF8] with ⟨e | f, log⟩
  · rw [hf] at hok
    cases hok
  · rw [hf] at hok
    exact ⟨f, log, rfl, Option.some.inj hok, located hf⟩

end FrontEnd
