import FrontEnd.Tree.Display
import FrontEnd.Proofs.Tree.Relocate

/-!
# Texts of trees

The text of a tree does not depend on where the tree stands.
-/

namespace FrontEnd

section
variable (f : Location → Location)

mutual

/-- The text of a tree does not depend on where the tree stands. -/
theorem Expr.text_relocate : (x : Expr) → (x.relocate f).text = x.text
  | .call c => by rw [Expr.relocate, Expr.text, Expr.text, Call.text_relocate c]
  | .name n => by rw [Expr.relocate, Expr.text, Expr.text]; rfl
  | .integer v loc => by rw [Expr.relocate, Expr.text, Expr.text]
  | .float v loc => by rw [Expr.relocate, Expr.text, Expr.text]
  | .bad loc => by rw [Expr.relocate, Expr.text, Expr.text]
  | .field h => by rw [Expr.relocate, Expr.text, Expr.text, Field.text_relocate h]
  | .func h => by rw [Expr.relocate, Expr.text, Expr.text, FuncTy.text_relocate h]

theorem Expr.texts_relocate : (xs : List Expr) →
    Expr.texts (Expr.relocateAll f xs) = Expr.texts xs
  | [] => by rw [Expr.relocateAll]
  | x :: xs => by
    rw [Expr.relocateAll, Expr.texts, Expr.texts, Expr.text_relocate x, Expr.texts_relocate xs]

theorem Call.text_relocate : (c : Call) → (c.relocate f).text = c.text
  | ⟨fn, args, dots, loc⟩ => by
    rw [Call.relocate, Call.text, Call.text, Expr.text_relocate fn, Expr.texts_relocate args]
    cases args <;> rfl

theorem Field.text_relocate : (h : Field) → (h.relocate f).text = h.text
  | ⟨some n, ty, group, loc⟩ => by
    rw [Field.relocate, Option.map_some, Field.text, Field.text, Ty.text_relocate ty]
    rfl
  | ⟨none, ty, group, loc⟩ => by
    rw [Field.relocate, Option.map_none, Field.text, Field.text, Ty.text_relocate ty]

theorem Field.typeText_relocate : (h : Field) → (h.relocate f).typeText = h.typeText
  | ⟨name, ty, group, loc⟩ => by
    rw [Field.relocate, Field.typeText, Field.typeText, Ty.text_relocate ty]

theorem Field.contextText_relocate : (hs : List Field) → ∀ run,
    Field.contextText run (Field.relocateAll f hs) = Field.contextText run hs
  | [], run => by rw [Field.relocateAll]
  | h :: hs, run => by
    have hlabel : (h.relocate f).label = h.label := by
      obtain ⟨name, ty, group, loc⟩ := h
      cases name <;> rfl
    have hgroup : (h.relocate f).group = h.group := by
      obtain ⟨name, ty, group, loc⟩ := h
      rfl
    have hcontinues : (h.relocate f).continues run = h.continues run := by
      unfold Field.continues
      rw [hgroup]
    rw [Field.relocateAll, Field.contextText, Field.contextText, hlabel, hgroup, hcontinues,
      Field.typeText_relocate h, Field.contextText_relocate hs, Field.contextText_relocate hs]

theorem Ty.text_relocate : (t : Ty) → (t.relocate f).text = t.text
  | .app c => by rw [Ty.relocate, Ty.text, Ty.text, Call.text_relocate c]
  | .func h => by rw [Ty.relocate, Ty.text, Ty.text, FuncTy.text_relocate h]

theorem Ty.texts_relocate : (ts : List Ty) → Ty.texts (Ty.relocateAll f ts) = Ty.texts ts
  | [] => by rw [Ty.relocateAll]
  | t :: ts => by
    rw [Ty.relocateAll, Ty.texts, Ty.texts, Ty.text_relocate t, Ty.texts_relocate ts]

theorem FuncTy.text_relocate : (h : FuncTy) → (h.relocate f).text = h.text
  | ⟨context, types, loc⟩ => by
    rw [FuncTy.relocate, FuncTy.text, FuncTy.text, Field.contextText_relocate context,
      Ty.texts_relocate types]

end
end
end FrontEnd
