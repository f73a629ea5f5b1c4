import FrontEnd.Proofs.Grammar.Derivation

/-!
# Trees somewhere else

`relocate f` moves every location of a tree by `f` and leaves everything else alone, the
sharing of types in contexts included.  Two trees are equal up to locations if they are
the same once all locations are moved to one place, `Location.nowhere`.
-/

namespace FrontEnd

namespace Location

def nowhere : Location :=
  ⟨"", 0, 0⟩

end Location

variable (f : Location → Location)

def Name.relocate (n : Name) : Name :=
  ⟨n.value, f n.loc⟩

mutual

def Expr.relocate : Expr → Expr
  | .call c => .call c.relocate
  | .name n => .name (n.relocate f)
  | .integer v loc => .integer v (f loc)
  | .float v loc => .float v (f loc)
  | .bad loc => .bad (f loc)
  | .field g => .field g.relocate
  | .func g => .func g.relocate

def Expr.relocateAll : List Expr → List Expr
  | [] => []
  | x :: xs => x.relocate :: Expr.relocateAll xs

def Call.relocate : Call → Call
  | ⟨fn, args, dots, loc⟩ => ⟨fn.relocate, Expr.relocateAll args, dots, f loc⟩

def Field.relocate : Field → Field
  | ⟨name, ty, group, loc⟩ => ⟨name.map (Name.relocate f), ty.relocate, group, f loc⟩

def Field.relocateAll : List Field → List Field
  | [] => []
  | g :: gs => g.relocate :: Field.relocateAll gs

def Ty.relocate : Ty → Ty
  | .app c => .app c.relocate
  | .func g => .func g.relocate

def Ty.relocateAll : List Ty → List Ty
  | [] => []
  | t :: ts => t.relocate :: Ty.relocateAll ts

def FuncTy.relocate : FuncTy → FuncTy
  | ⟨context, types, loc⟩ => ⟨Field.relocateAll context, Ty.relocateAll types, f loc⟩

end

def Pattern.relocate : Pattern → Pattern
  | .name n => .name (n.relocate f)
  | .field g => .field (g.relocate f)
  | .call c => .call (c.relocate f)
  | .integer v loc => .integer v (f loc)
  | .float v loc => .float v (f loc)
  | .bad loc => .bad (f loc)

def Signature.relocate (s : Signature) : Signature :=
  ⟨s.name.relocate f, s.ty.relocate f, f s.loc⟩

def Function.relocate (g : Function) : Function :=
  ⟨g.name.relocate f, g.ty.map (Ty.relocate f), g.params.map (Pattern.relocate f),
    g.body.map (Expr.relocate f), f g.loc⟩

def Block.relocate (b : Block) : Block :=
  ⟨b.name.relocate f, b.params.map (Name.relocate f), b.members.map (Signature.relocate f),
    f b.loc⟩

def Decl.relocate : Decl → Decl
  | .imported called path loc => .imported (called.map (Name.relocate f)) path (f loc)
  | .exported n exports loc => .exported (n.relocate f) (exports.map (Expr.relocate f)) (f loc)
  | .signature s => .signature (s.relocate f)
  | .function g => .function (g.relocate f)
  | .enumeration b => .enumeration (b.relocate f)
  | .sealed b => .sealed (b.relocate f)

def SyntaxError.relocate : SyntaxError → SyntaxError
  | .expected what found loc => .expected what found (f loc)
  | .invalidField loc => .invalidField (f loc)

variable {f}

theorem Expr.relocateAll_eq (xs : List Expr) : relocateAll f xs = xs.map (relocate f) := by
  induction xs with
  | nil => rw [relocateAll, List.map_nil]
  | cons x xs ih => rw [relocateAll, ih, List.map_cons]

theorem Field.relocateAll_eq (gs : List Field) : relocateAll f gs = gs.map (relocate f) := by
  induction gs with
  | nil => rw [relocateAll, List.map_nil]
  | cons g gs ih => rw [relocateAll, ih, List.map_cons]

theorem Ty.relocateAll_eq (ts : List Ty) : relocateAll f ts = ts.map (relocate f) := by
  induction ts with
  | nil => rw [relocateAll, List.map_nil]
  | cons t ts ih => rw [relocateAll, ih, List.map_cons]

theorem Expr.relocate_ofInteger (v : Parse.Converted Nat) :
    (ofInteger v).relocate f = ofInteger (v.1, f v.2) := by
  rcases v with ⟨_ | v, loc⟩ <;> simp [ofInteger, relocate]

theorem Expr.relocate_ofFloat (v : Parse.Converted Double) :
    (ofFloat v).relocate f = ofFloat (v.1, f v.2) := by
  rcases v with ⟨_ | v, loc⟩ <;> simp [ofFloat, relocate]

theorem Pattern.relocate_ofInteger (v : Parse.Converted Nat) :
    (ofInteger v).relocate f = ofInteger (v.1, f v.2) := by
  rcases v with ⟨_ | v, loc⟩ <;> rfl

theorem Pattern.relocate_ofFloat (v : Parse.Converted Double) :
    (ofFloat v).relocate f = ofFloat (v.1, f v.2) := by
  rcases v with ⟨_ | v, loc⟩ <;> rfl

theorem Name.relocate_toCall (n : Name) :
    n.toCall.relocate f = (n.relocate f).toCall := by
  simp [toCall, Call.relocate, Expr.relocate, Expr.relocateAll, Name.relocate]

theorem Ty.relocate_toExpr (t : Ty) : t.toExpr.relocate f = (t.relocate f).toExpr := by
  cases t <;> simp [toExpr, Expr.relocate, relocate]

theorem Field.relocate_ofName (ty : Ty) (n : Name) :
    (ofName ty n).relocate f = ofName (ty.relocate f) (n.relocate f) := by
  simp [ofName, relocate, Name.relocate]

theorem Field.relocate_behind (n : Nat) (g : Field) :
    (behind n g).relocate f = behind n (g.relocate f) := by
  cases g
  simp [behind, relocate]

/-- A context in front of another is put there wherever both of them are. -/
theorem Ty.relocate_withContext (t shared : Ty) (ns : List Name) (loc : Location) :
    (t.withContext ns shared loc).relocate f =
      (t.relocate f).withContext (ns.map (Name.relocate f)) (shared.relocate f) (f loc) := by
  have hfields : (ns.map (Field.ofName shared)).map (Field.relocate f) =
      (ns.map (Name.relocate f)).map (Field.ofName (shared.relocate f)) := by
    rw [List.map_map, List.map_map]
    exact List.map_congr_left fun n _ => Field.relocate_ofName shared n
  cases t with
  | app c =>
    simp only [withContext, relocate, FuncTy.relocate, Field.relocateAll_eq, hfields]
    simp [relocateAll, relocate]
  | func g =>
    obtain ⟨context, types, l⟩ := g
    have hbehind : (context.map (Field.behind ns.length)).map (Field.relocate f) =
        (context.map (Field.relocate f)).map (Field.behind ns.length) := by
      rw [List.map_map, List.map_map]
      exact List.map_congr_left fun g _ => Field.relocate_behind ns.length g
    simp only [withContext, relocate, FuncTy.relocate, Field.relocateAll_eq, List.map_append,
      hfields, hbehind, List.length_map]

theorem Call.relocate_applied (fn : Expr) (args : List Expr) (loc : Location) :
    (applied fn args loc).relocate f =
      applied (fn.relocate f) (args.map (Expr.relocate f)) (f loc) := by
  cases fn <;> cases args <;> simp [applied, relocate, Expr.relocate, Expr.relocateAll_eq]

theorem Expr.loc_relocate (x : Expr) : (x.relocate f).loc = f x.loc := by
  cases x with
  | call c => cases c; simp [relocate, Call.relocate, loc]
  | field g => cases g; simp [relocate, Field.relocate, loc]
  | func g => cases g; simp [relocate, FuncTy.relocate, loc]
  | _ => simp [relocate, Name.relocate, loc]

/-! ## The names of a context -/

/-- What a conversion comes to when everything is moved. -/
def Except.relocate {α : Type} (f : Location → Location) (move : α → α) :
    Except SyntaxError α → Except SyntaxError α
  | .ok a => .ok (move a)
  | .error e => .error (e.relocate f)

theorem Expr.fieldName_relocate (x : Expr) :
    (x.relocate f).fieldName = Except.relocate f (Name.relocate f) x.fieldName := by
  have hloc := loc_relocate (f := f) x
  cases x with
  | call c =>
    obtain ⟨fn, args, dots, loc⟩ := c
    have hfn := loc_relocate (f := f) fn
    cases args <;> cases fn <;>
      simp_all [relocate, Call.relocate, relocateAll, fieldName, Except.relocate,
        SyntaxError.relocate]
  | name n => simp [relocate, fieldName, Except.relocate]
  | _ => simpa [relocate, fieldName, Except.relocate, SyntaxError.relocate] using hloc

theorem Expr.fieldNames_relocate (xs : List Expr) :
    (xs.map (relocate f)).mapM fieldName =
      Except.relocate f (List.map (Name.relocate f)) (xs.mapM fieldName) := by
  induction xs with
  | nil => rfl
  | cons x xs ih =>
    rw [List.map_cons, List.mapM_cons, List.mapM_cons, ih, fieldName_relocate]
    cases x.fieldName with
    | error e => rfl
    | ok n => cases xs.mapM fieldName <;> rfl

theorem Ty.fieldNames_relocate (t : Ty) :
    (t.relocate f).fieldNames = Except.relocate f (List.map (Name.relocate f)) t.fieldNames := by
  cases t with
  | func g =>
    cases g
    simp [relocate, FuncTy.relocate, fieldNames, Except.relocate, SyntaxError.relocate]
  | app c =>
    obtain ⟨fn, args, dots, loc⟩ := c
    rw [fieldNames_app, relocate, fieldNames_app, Call.relocate, Expr.relocateAll_eq]
    exact Expr.fieldNames_relocate (fn :: args)

/-! ## Moving twice -/

section Twice

variable (f g : Location → Location)

mutual

theorem Expr.relocate_relocate : (x : Expr) → (x.relocate f).relocate g = x.relocate (g ∘ f)
  | .call c => by rw [Expr.relocate, Expr.relocate, Expr.relocate, Call.relocate_relocate c]
  | .name n => by rw [Expr.relocate, Expr.relocate, Expr.relocate]; rfl
  | .integer v loc => by rw [Expr.relocate, Expr.relocate, Expr.relocate]; rfl
  | .float v loc => by rw [Expr.relocate, Expr.relocate, Expr.relocate]; rfl
  | .bad loc => by rw [Expr.relocate, Expr.relocate, Expr.relocate]; rfl
  | .field h => by rw [Expr.relocate, Expr.relocate, Expr.relocate, Field.relocate_relocate h]
  | .func h => by rw [Expr.relocate, Expr.relocate, Expr.relocate, FuncTy.relocate_relocate h]

theorem Expr.relocateAll_relocateAll : (xs : List Expr) →
    Expr.relocateAll g (Expr.relocateAll f xs) = Expr.relocateAll (g ∘ f) xs
  | [] => by rw [Expr.relocateAll, Expr.relocateAll, Expr.relocateAll]
  | x :: xs => by
    rw [Expr.relocateAll, Expr.relocateAll, Expr.relocateAll, Expr.relocate_relocate x,
      Expr.relocateAll_relocateAll xs]

theorem Call.relocate_relocate : (c : Call) → (c.relocate f).relocate g = c.relocate (g ∘ f)
  | ⟨fn, args, dots, loc⟩ => by
    rw [Call.relocate, Call.relocate, Call.relocate, Expr.relocate_relocate fn,
      Expr.relocateAll_relocateAll args]
    rfl

theorem Field.relocate_relocate : (h : Field) → (h.relocate f).relocate g = h.relocate (g ∘ f)
  | ⟨name, ty, group, loc⟩ => by
    rw [Field.relocate, Field.relocate, Field.relocate, Ty.relocate_relocate ty, Option.map_map]
    rfl

theorem Field.relocateAll_relocateAll : (hs : List Field) →
    Field.relocateAll g (Field.relocateAll f hs) = Field.relocateAll (g ∘ f) hs
  | [] => by rw [Field.relocateAll, Field.relocateAll, Field.relocateAll]
  | h :: hs => by
    rw [Field.relocateAll, Field.relocateAll, Field.relocateAll, Field.relocate_relocate h,
      Field.relocateAll_relocateAll hs]

theorem Ty.relocate_relocate : (t : Ty) → (t.relocate f).relocate g = t.relocate (g ∘ f)
  | .app c => by rw [Ty.relocate, Ty.relocate, Ty.relocate, Call.relocate_relocate c]
  | .func h => by rw [Ty.relocate, Ty.relocate, Ty.relocate, FuncTy.relocate_relocate h]

theorem Ty.relocateAll_relocateAll : (ts : List Ty) →
    Ty.relocateAll g (Ty.relocateAll f ts) = Ty.relocateAll (g ∘ f) ts
  | [] => by rw [Ty.relocateAll, Ty.relocateAll, Ty.relocateAll]
  | t :: ts => by
    rw [Ty.relocateAll, Ty.relocateAll, Ty.relocateAll, Ty.relocate_relocate t,
      Ty.relocateAll_relocateAll ts]

theorem FuncTy.relocate_relocate : (h : FuncTy) →
    (h.relocate f).relocate g = h.relocate (g ∘ f)
  | ⟨context, types, loc⟩ => by
    rw [FuncTy.relocate, FuncTy.relocate, FuncTy.relocate, Field.relocateAll_relocateAll context,
      Ty.relocateAll_relocateAll types]
    rfl

end

end Twice

/-! ## Staying in place -/

theorem Name.relocate_id (n : Name) : n.relocate id = n := rfl

mutual

theorem Expr.relocate_id : (x : Expr) → x.relocate id = x
  | .call c => by rw [Expr.relocate, Call.relocate_id c]
  | .name n => by rw [Expr.relocate, Name.relocate_id]
  | .integer v loc => by rw [Expr.relocate, id]
  | .float v loc => by rw [Expr.relocate, id]
  | .bad loc => by rw [Expr.relocate, id]
  | .field g => by rw [Expr.relocate, Field.relocate_id g]
  | .func g => by rw [Expr.relocate, FuncTy.relocate_id g]

theorem Expr.relocateAll_id : (xs : List Expr) → Expr.relocateAll id xs = xs
  | [] => by rw [Expr.relocateAll]
  | x :: xs => by rw [Expr.relocateAll, Expr.relocate_id x, Expr.relocateAll_id xs]

theorem Call.relocate_id : (c : Call) → c.relocate id = c
  | ⟨fn, args, dots, loc⟩ => by
    rw [Call.relocate, Expr.relocate_id fn, Expr.relocateAll_id args, id]

theorem Field.relocate_id : (g : Field) → g.relocate id = g
  | ⟨name, ty, group, loc⟩ => by
    rw [Field.relocate, Ty.relocate_id ty, id]
    cases name <;> rfl

theorem Field.relocateAll_id : (gs : List Field) → Field.relocateAll id gs = gs
  | [] => by rw [Field.relocateAll]
  | g :: gs => by rw [Field.relocateAll, Field.relocate_id g, Field.relocateAll_id gs]

theorem Ty.relocate_id : (t : Ty) → t.relocate id = t
  | .app c => by rw [Ty.relocate, Call.relocate_id c]
  | .func g => by rw [Ty.relocate, FuncTy.relocate_id g]

theorem Ty.relocateAll_id : (ts : List Ty) → Ty.relocateAll id ts = ts
  | [] => by rw [Ty.relocateAll]
  | t :: ts => by rw [Ty.relocateAll, Ty.relocate_id t, Ty.relocateAll_id ts]

theorem FuncTy.relocate_id : (g : FuncTy) → g.relocate id = g
  | ⟨context, types, loc⟩ => by
    rw [FuncTy.relocate, Field.relocateAll_id context, Ty.relocateAll_id types, id]

end

theorem map_eq_self {α : Type} {move : α → α} (h : ∀ a, move a = a) (as : List α) :
    as.map move = as := by
  rw [funext h]
  exact List.map_id as

theorem Pattern.relocate_id (p : Pattern) : p.relocate id = p := by
  cases p <;>
    simp [relocate, Name.relocate_id, Field.relocate_id, Call.relocate_id]

theorem Signature.relocate_id (s : Signature) : s.relocate id = s := by
  simp [relocate, Name.relocate_id, Ty.relocate_id]

theorem Function.relocate_id (g : Function) : g.relocate id = g := by
  obtain ⟨name, ty, params, body, loc⟩ := g
  simp only [relocate, Name.relocate_id, map_eq_self Pattern.relocate_id, id, Function.mk.injEq,
    true_and, and_true]
  cases ty <;> cases body <;> simp [Ty.relocate_id, Expr.relocate_id]

theorem Block.relocate_id (b : Block) : b.relocate id = b := by
  simp [relocate, Name.relocate_id, map_eq_self Name.relocate_id,
    map_eq_self Signature.relocate_id]

theorem Decl.relocate_id (d : Decl) : d.relocate id = d := by
  cases d with
  | imported called path loc => cases called <;> simp [relocate, Name.relocate_id]
  | exported n exports loc =>
    simp [relocate, Name.relocate_id, map_eq_self Expr.relocate_id]
  | _ => simp [relocate, Signature.relocate_id, Function.relocate_id, Block.relocate_id]

theorem SyntaxError.relocate_id (e : SyntaxError) : e.relocate id = e := by
  cases e <;> rfl

end FrontEnd
