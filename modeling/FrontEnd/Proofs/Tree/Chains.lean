import FrontEnd.Proofs.Surface.Derivation
import FrontEnd.Proofs.Tree.Shape
import FrontEnd.Tree.Arrow

/-!
# Chains of arrows

`Ty.arrows` puts types together with arrows and `FuncTy.flatten` takes them apart.  The chain is
followed through the last type of each link only, so the list comes back whatever the types in
front are, as long as the last one is not an arrow itself.  The arrows that are read from a text
have two sides each, and so every chain of a text is put together from its flattened types.
-/

namespace FrontEnd

open Surface (away)

def Ty.isArrow : Ty → Bool
  | .app _ => false
  | .func f => f.context.isEmpty

def Ty.arrows (sources : List Ty) (target : Ty) : Ty :=
  sources.foldr (fun source t => .func (.arrow source t)) target

namespace Ty

variable {t target : Ty}

theorem links_of_not_isArrow (h : t.isArrow = false) : t.links = [t] := by
  cases t with
  | app c => rw [links]
  | func f =>
    have hcontext : f.context.isEmpty = false := h
    rw [links, hcontext, if_neg Bool.false_ne_true]

theorem flatten_arrow (source t : Ty) : (FuncTy.arrow source t).flatten = source :: t.links := by
  rw [FuncTy.arrow, FuncTy.flatten, flattenAll, flattenAll]

theorem links_arrow (source t : Ty) : (Ty.func (.arrow source t)).links = source :: t.links := by
  rw [links, flatten_arrow]
  rfl

theorem links_arrows (h : target.isArrow = false) (sources : List Ty) :
    (arrows sources target).links = sources ++ [target] := by
  induction sources with
  | nil => exact links_of_not_isArrow h
  | cons source sources ih =>
    show (Ty.func (.arrow source (arrows sources target))).links = _
    rw [links_arrow, ih, List.cons_append]

theorem relocate_arrow (f : Location → Location) (source t : Ty) (loc : Location) :
    (Ty.func ⟨[], [source, t], loc⟩).relocate f =
      .func ⟨[], [source.relocate f, t.relocate f], f loc⟩ := by
  simp [relocate, FuncTy.relocate, Field.relocateAll, relocateAll]

theorem two_sides {types : List Ty} {loc : Location}
    (h : (Ty.func ⟨[], types, loc⟩).isRegular = true) :
    ∃ source t, types = [source, t] ∧ t.isRegular = true := by
  simp only [isRegular, FuncTy.isRegular, Bool.and_eq_true] at h
  obtain ⟨⟨hshape, -⟩, htypes⟩ := h
  split at hshape
  · simp only [areRegular, Bool.and_eq_true] at htypes
    exact ⟨_, _, rfl, htypes.2.1⟩
  · cases hshape
  · cases hshape

/-- A regular type is put together from the links of its chain.  The recursion goes along the
chain. -/
theorem arrows_links : (t : Ty) → t.isRegular = true → ∃ sources target,
    t.links = sources ++ [target] ∧ target.isArrow = false ∧
      (arrows sources target).relocate away = t.relocate away
  | .app c, _ => ⟨[], .app c, links_of_not_isArrow rfl, rfl, rfl⟩
  | .func ⟨g :: context, types, loc⟩, _ =>
    ⟨[], .func ⟨g :: context, types, loc⟩, links_of_not_isArrow rfl, rfl, rfl⟩
  | .func ⟨[], types, loc⟩, h => by
    obtain ⟨source, t, rfl, ht⟩ := two_sides h
    obtain ⟨sources, target, hlinks, htarget, hsame⟩ := arrows_links t ht
    refine ⟨source :: sources, target, ?_, htarget, ?_⟩
    · rw [links, FuncTy.flatten, flattenAll, flattenAll, hlinks]
      rfl
    · show (Ty.func ⟨[], [source, arrows sources target], source.loc⟩).relocate away = _
      rw [relocate_arrow, relocate_arrow, hsame]
      rfl

/-- Flattening a chain and putting it together undo each other: from any types of which the last is
no arrow the same list comes back, and a type that is read from a text comes back up to
locations. -/
theorem flatten_arrows :
    (∀ (first : Ty) (middle : List Ty) (last : Ty), last.isArrow = false →
      (FuncTy.arrow first (arrows middle last)).flatten = first :: (middle ++ [last])) ∧
    ∀ (s u : Parser) (f : FuncTy), Parse.type s = .ok (.func f) u → f.context = [] →
      ∃ sources target, f.flatten = sources ++ [target] ∧ target.isArrow = false ∧
        (arrows sources target).relocate away = (Ty.func f).relocate away := by
  refine ⟨fun first middle last hlast => ?_, fun s u f h hcontext => ?_⟩
  · rw [flatten_arrow, links_arrows hlast]
  · obtain ⟨es, -, hd⟩ := Parse.yields_type s u (.func f) h
    obtain ⟨sources, target, hlinks, htarget, hsame⟩ := arrows_links (.func f) hd.isRegular
    rw [links, hcontext] at hlinks
    exact ⟨sources, target, hlinks, htarget, hsame⟩

theorem flatten_arrows_context :
    let a := Ty.app (Name.toCall ⟨"a", .nowhere⟩)
    let t := Ty.func ⟨[.ofName a ⟨"k", .nowhere⟩], [a], .nowhere⟩
    (FuncTy.arrow (.func (.arrow a a)) (arrows [a] t)).flatten = [.func (.arrow a a), a, t] ∧
    ∃ f u, Parse.type (.ofString "a -> (b -> c) -> (k : T) => k") = .ok (.func f) u ∧
      ∃ sources target, f.flatten = sources ++ [target] ∧
        (arrows sources target).relocate away = (Ty.func f).relocate away := by
  obtain ⟨hflatten, hread⟩ := flatten_arrows
  refine ⟨hflatten _ _ _ rfl, ?_⟩
  have harrow : (match Parse.type (.ofString "a -> (b -> c) -> (k : T) => k") with
    | .ok t _ => t.isArrow
    | .error _ _ => false) = true := by decide +kernel
  cases h : Parse.type (.ofString "a -> (b -> c) -> (k : T) => k") with
  | error e u =>
    rw [h] at harrow
    cases harrow
  | ok t u =>
    rw [h] at harrow
    cases t with
    | app c => cases harrow
    | func f =>
      obtain ⟨sources, target, hlinks, -, hsame⟩ :=
        hread _ u f h (List.isEmpty_iff.1 harrow)
      exact ⟨f, u, rfl, sources, target, hlinks, hsame⟩

end Ty
end FrontEnd
