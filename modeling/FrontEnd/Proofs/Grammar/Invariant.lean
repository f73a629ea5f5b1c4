import FrontEnd.Grammar.Closure
import FrontEnd.Proofs.Grammar.Soundness

/-!
# What holds through a call

`Holds I E x` says that `x` keeps the property `I` of parsers, and that an error of `x` is in
the relation `E` to where it stops.  Every production hands on the errors of its parts as
they are, so both are settled by the single steps, and by one thing more for types: where
the names of a context are refused, no step has failed.
-/

namespace FrontEnd
namespace Parse

variable {I : Parser → Prop} {E : SyntaxError → Parser → Prop} {α β : Type} {s t : Parser}

/-- What `x` does at `s` leads to where `I` holds, and if it fails its error is in the relation
`E` to where it has come to. -/
structure HoldsAt (I : Parser → Prop) (E : SyntaxError → Parser → Prop) (x : Parse α)
    (s : Parser) : Prop where
  ok : ∀ {a t}, x s = .ok a t → I t
  error : ∀ {e t}, x s = .error e t → E e t

def Holds (I : Parser → Prop) (E : SyntaxError → Parser → Prop) (x : Parse α) : Prop :=
  ∀ s, I s → HoldsAt I E x s

/-- An error of either part is the error of the sequence. -/
theorem HoldsAt.bind {x : Parse α} {g : α → Parse β} (hx : HoldsAt I E x s)
    (hg : ∀ a t, x s = .ok a t → HoldsAt I E (g a) t) : HoldsAt I E (x >>= g) s := by
  constructor
  · intro b u h
    obtain ⟨a, t, ht, hu⟩ := bind_eq_ok h
    exact (hg a t ht).ok hu
  · intro e u h
    cases ht : x s with
    | ok a t =>
      rw [bind_ok ht] at h
      exact (hg a t ht).error h
    | error e' t =>
      cases (bind_error ht).symm.trans h
      exact hx.error ht

theorem holds_bind {x : Parse α} {g : α → Parse β} (hx : Holds I E x)
    (hg : ∀ a, Holds I E (g a)) : Holds I E (x >>= g) :=
  fun s hs => (hx s hs).bind fun a t ht => hg a t ((hx s hs).ok ht)

theorem holds_of_ok {x : Parse α} (h : ∀ s, I s → ∃ a t, x s = .ok a t ∧ I t) :
    Holds I E x := by
  intro s hs
  obtain ⟨a, t, hx, ht⟩ := h s hs
  constructor
  · intro b u hu
    cases hx.symm.trans hu
    exact ht
  · intro e u hu
    cases hx.symm.trans hu

/-- The single steps keep `I`, and their errors are in the relation `E` to where they stop. -/
structure Kept (I : Parser → Prop) (E : SyntaxError → Parser → Prop) : Prop where
  advance : ∀ s, I s → I s.advance
  report : ∀ s d, I s → I (s.report d)
  fail : ∀ s what, I s → E (.expected what s.current.token s.here) s

/-- Where a colon follows a type that has just been read, its names may be refused. -/
def Refusals (I : Parser → Prop) (E : SyntaxError → Parser → Prop) : Prop :=
  ∀ {s t : Parser} {es : List Entry} {inner : Ty} {e : SyntaxError}, I s → Passes s es t →
    Derives s.path (.type inner) es → t.current.Is .colon → inner.fieldNames = .error e → E e t

section Grammar

variable (h : Kept I E)

include h

theorem Kept.closed : Closed (Holds I E) where
  pure a := holds_of_ok fun s hs => ⟨a, s, rfl, hs⟩
  bind := holds_bind
  get := holds_of_ok fun s hs => ⟨s, s, rfl, hs⟩
  advance := holds_of_ok fun s hs => ⟨_, _, rfl, h.advance s hs⟩
  report loc problem := holds_of_ok fun s hs => ⟨(), _, rfl, h.report s ⟨loc.position, problem⟩ hs⟩
  fail what s hs := ⟨nofun, fun he => by
    cases he
    exact h.fail s what hs⟩

theorem Kept.context {x : Parse Ty} (hx : Holds I E x) {inner : Ty} {loc : Location} (hs : I s)
    (hnames : ∀ {e}, inner.fieldNames = .error e → E e s) :
    HoldsAt I E (Parse.context x inner loc) s := by
  have hof : HoldsAt I E (MonadExcept.ofExcept inner.fieldNames : Parse (List Name)) s := by
    cases hn : inner.fieldNames with
    | ok names => exact h.closed.pure names s hs
    | error e =>
      refine ⟨nofun, fun he => ?_⟩
      cases he
      exact hnames hn
  exact hof.bind fun names t ht => h.closed.contextTail hx names loc t (hof.ok ht)

theorem Kept.typeLevel (hnames : Refusals I E) {x : Parse Ty} (hy : Yields x TypeOf)
    (hx : Holds I E x) : Holds I E (Parse.typeLevel x) := by
  have hc := h.closed
  refine hc.bind hc.here fun loc => hc.bind hc.kind fun k => ?_
  cases k with
  | ident => exact hc.bind (hc.typeApplication hx) fun _ => hc.arrowTail hx _ _
  | parenLeft =>
    refine hc.bind hc.advance fun _ s hs => (hx s hs).bind fun inner t ht => ?_
    have hI := (hx s hs).ok ht
    refine (hc.kind t hI).bind fun k u hu => ?_
    cases hu
    split
    · next hcolon =>
      obtain ⟨es, hp, hd⟩ := hy s t inner ht
      exact h.context hx hI (hnames hs hp hd hcolon)
    · exact hc.bind (hc.expect _) (fun _ => hc.arrowTail hx inner loc) t hI
  | _ => exact hc.fail _

/-- What is nested in a type yields a type, however deep it is. -/
theorem Kept.type (hnames : Refusals I E) : Holds I E Parse.type := by
  have hlevel : ∀ x, Forward x → Yields x TypeOf → Yields (Parse.typeLevel x) TypeOf :=
    fun _ hf hx => yields_typeLevel hf hx
  have key : ∀ left : List Entry, Holds I E (nestAlong .type Parse.typeLevel left) := by
    intro left
    induction left with
    | nil => exact h.typeLevel hnames (yields_fail .type) (h.closed.fail .type)
    | cons e left ih =>
      exact h.typeLevel hnames (yields_nestAlong guarded_typeLevel hlevel left) ih
  exact holds_bind h.closed.get fun _ => key _

end Grammar

end Parse
end FrontEnd
