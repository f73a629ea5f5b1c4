/-!
# Positions in a source text

A `Position` is a line and a column, both counted from one, and columns count
runes.  `Position.after` is the only way a position moves, so where a rune stands
is a fold over the runes before it.  A `Location` adds the file's name, which is
what trees and errors carry.
-/

namespace FrontEnd

/-- Line and column of a rune, or of the end of the text.  Both are assumed to be less than
`2 ^ 32`: they are counted in thirty-two bits, and a longer text is none of our concern. -/
structure Position where
  line : Nat
  col : Nat
deriving DecidableEq, Repr, Inhabited

namespace Position

def start : Position := ⟨1, 1⟩

/-- The position just past the rune `c` standing at `p`.  Only a newline starts a
line; a carriage return takes a column like any other rune. -/
def after (p : Position) (c : Char) : Position :=
  if c = '\n' then ⟨p.line + 1, 1⟩ else ⟨p.line, p.col + 1⟩

/-- The position just past the runes `cs`, the first of which stands at `p`. -/
def afterAll (p : Position) (cs : List Char) : Position :=
  cs.foldl after p

def right (p : Position) (n : Nat) : Position :=
  ⟨p.line, p.col + n⟩

@[simp] theorem after_newline (p : Position) : p.after '\n' = ⟨p.line + 1, 1⟩ := by
  simp [after]

theorem after_of_ne {c : Char} (h : c ≠ '\n') (p : Position) : p.after c = p.right 1 := by
  simp [after, right, h]

@[simp] theorem afterAll_nil (p : Position) : p.afterAll [] = p := rfl

@[simp] theorem afterAll_cons (p : Position) (c : Char) (cs : List Char) :
    p.afterAll (c :: cs) = (p.after c).afterAll cs := rfl

theorem afterAll_append (p : Position) (as bs : List Char) :
    p.afterAll (as ++ bs) = (p.afterAll as).afterAll bs :=
  List.foldl_append

/-- A run without a newline stays on its line, one column a rune. -/
theorem afterAll_eq_right {cs : List Char} (h : '\n' ∉ cs) (p : Position) :
    p.afterAll cs = p.right cs.length := by
  induction cs generalizing p with
  | nil => rfl
  | cons c cs ih =>
    have hc : c ≠ '\n' := fun e => h (e ▸ List.mem_cons_self)
    rw [afterAll_cons, after_of_ne hc, ih (fun m => h (List.mem_cons_of_mem _ m))]
    simp only [right, List.length_cons, Position.mk.injEq, true_and]
    omega

end Position

/-- A position in a named file.  The name is empty for a text that came from no
file. -/
structure Location where
  path : String
  line : Nat
  col : Nat
deriving DecidableEq, Repr, Inhabited

namespace Location

def ofPosition (path : String) (p : Position) : Location :=
  ⟨path, p.line, p.col⟩

def position (l : Location) : Position :=
  ⟨l.line, l.col⟩

def text (l : Location) : String :=
  let place := toString l.line ++ ":" ++ toString l.col
  if l.path = "" then place else l.path ++ ":" ++ place

end Location

end FrontEnd
