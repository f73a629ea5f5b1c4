import FrontEnd.Proofs.Grammar.Locality
import FrontEnd.Proofs.Lexing.Termination
import Mathlib.Logic.Function.Iterate

/-!
# Every call returns

The grammar repeats and nests without a bound, and what bounds it here are the tokens that
are left: before a repetition comes round again, and before an expression or a type is read
within another, a token has been taken.  So a parse may be unfolded as often as there are
tokens left and once more, and then nothing depends on what would be done after that.
-/

namespace FrontEnd
namespace Parse

variable {α : Type} {level : Parse α → Parse α} {x : Parse α}

/-- `x` is what `level` makes of `x`, and is found without going round for ever: with fewer
than `n` tokens left, `n` rounds of `level` are enough, whatever would be done in the next. -/
structure Grounded (level : Parse α → Parse α) (x : Parse α) : Prop where
  eq : x = level x
  within : ∀ s n, s.left < n → ∀ y, level^[n] y s = x s

/-- It is enough that a token is taken before the next round. -/
theorem grounded_of_congr (hx : x = level x)
    (h : ∀ y s, (∀ t, t.left < s.left → y t = x t) → level y s = level x s) :
    Grounded level x := by
  refine ⟨hx, fun s n hn y => ?_⟩
  induction n generalizing s with
  | zero => exact absurd hn (Nat.not_lt_zero _)
  | succ n ih =>
    rw [Function.iterate_succ_apply', h _ s fun t ht => ih t (by omega), ← hx]

/-- One round of a repetition that goes on with `again`. -/
def round (item : Parse (Option α)) (again : Parse (List α)) : Parse (List α) := do
  match ← item with
  | some a => return a :: (← again)
  | none => return []

theorem grounded_many {item : Parse (Option α)} (h : Takes item) :
    Grounded (round item) (many item) := by
  refine grounded_of_congr (many_eq h) fun y s hy => bind_congr_at rfl fun o t ht => ?_
  cases o with
  | none => rfl
  | some a => exact bind_congr_at (hy t (h s t a ht)) fun _ _ _ => rfl

theorem grounded_expr : Grounded exprLevel expr :=
  grounded_of_congr expr_eq fun _ _ h => exprLevel_congr_at closed_forward.expr h

theorem grounded_type : Grounded typeLevel type :=
  grounded_of_congr type_eq fun _ _ h => typeLevel_congr_at forward_type h

end Parse

/-- The fewest tokens that a phrase is read from. -/
def Phrase.least : Phrase → Nat
  | arguments _ | typeArguments _ | patterns _ | names _ | members _ | decls _ => 0
  | signature _ | block _ | decl _ => 3
  | _ => 1

theorem Derives.least_le {path : String} {ph : Phrase} {es : List Entry}
    (h : Derives path ph es) : ph.least ≤ es.length := by
  induction h <;> simp only [Phrase.least, List.length_cons, List.length_append] at * <;> omega

namespace Parse

theorem decl_least {s t : Parser} {d : Decl} (h : decl s = .ok d t) : t.left + 3 ≤ s.left := by
  obtain ⟨es, hes, hd⟩ := yields_decl s t d h
  have hleast := hd.least_le
  have hleft := hes.left
  simp only [Phrase.least] at hleast
  omega

/-- On any finite sequence of reads, whether these fail or not:

* the source comes to its end, and before that each of its runes takes a byte at least of
  those that the reads bring;
* each token is found behind a gap and has a rune at least, but for the end, which is come
  to after at most one call more than there are runes; from then on there is the end again,
  at the same place, and nothing is reported;
* expressions, types and all that is repeated are grounded, and the rest of the grammar
  neither repeats nor contains itself, so every call returns wherever the parser stands;
* a declaration takes three tokens at least, and an expression, a type, an argument or a
  pattern one; and a file is read to the end. -/
theorem terminates (reads : List Read) :
    let source := Source.ofReads reads
    let text := Text.ofReads reads
    let x := Lexer.ofText text
    ((source.advanceBy text.runes.length).rune = none ∧
      ∀ k ≤ text.runes.length, (source.advanceBy k).pending + k ≤ Read.total reads) ∧
    ((∀ n, ∃ gap, (x.nextBy n).rest =
        gap ++ ((x.nextBy (n + 1)).current.token.lexeme.toList ++ (x.nextBy (n + 1)).rest) ∧
        (¬ (x.nextBy (n + 1)).current.Is .eof →
          (x.nextBy (n + 1)).current.token.lexeme.toList ≠ [])) ∧
      (∃ n ≤ text.runes.length, (x.nextBy (n + 1)).current.Is .eof) ∧
      ∀ n m, n ≤ m → (x.nextBy (n + 1)).current.Is .eof →
        (x.nextBy (m + 1)).current.token = .eof ∧
        (x.nextBy (m + 1)).current.pos = (x.nextBy (n + 1)).current.pos ∧
        (x.nextBy (m + 1)).log = (x.nextBy (n + 1)).log) ∧
    (Grounded exprLevel expr ∧ Grounded typeLevel type ∧
      Grounded (round separator?) (many separator?) ∧
      Grounded (round name?) (many name?) ∧
      Grounded (round pattern?) (many pattern?) ∧
      Grounded (round (argument? expr)) (many (argument? expr)) ∧
      Grounded (round (typeArgument? type)) (many (typeArgument? type)) ∧
      Grounded (round member?) (many member?) ∧
      Grounded (round decl?) (many decl?)) ∧
    ∀ s t, (∀ d, decl s = .ok d t → t.left + 3 ≤ s.left) ∧
      (∀ a, expr s = .ok a t → t.left < s.left) ∧
      (∀ a, type s = .ok a t → t.left < s.left) ∧
      (∀ a, argument? expr s = .ok (some a) t → t.left < s.left) ∧
      (∀ a, typeArgument? type s = .ok (some a) t → t.left < s.left) ∧
      (∀ p, pattern? s = .ok (some p) t → t.left < s.left) ∧
      ∀ f, file s = .ok f t → t.current.Is .eof := by
  intro source text x
  have hargument := takes_argument? closed_forward.expr
  have htypeArgument := takes_typeArgument? forward_type
  refine ⟨⟨?_, fun k hk => ?_⟩, ⟨fun n => ?_, x.exists_end, fun n m hnm he => ?_⟩, ?_,
    fun s t => ⟨fun _ => decl_least, fun _ => expr_lt, fun _ => type_lt, hargument s t,
      htypeArgument s t, takes_pattern? s t, fun f hf => ?_⟩⟩
  · have hrunes : text.runes[text.runes.length]? = _ := Text.runes_eq 0 _ source
    rw [← hrunes]
    exact List.getElem?_eq_none (Nat.le_refl _)
  · have hpending := Text.pending_advanceBy 0 source hk
    exact Nat.le_trans hpending (Source.pending_ofReads_le reads)
  · rw [Lexer.nextBy_succ]
    exact (x.nextBy n).takes_next
  · exact (Lexer.closes_ofReads reads).end_stays hnm he
  · exact ⟨grounded_expr, grounded_type, grounded_many takes_separator?, grounded_many takes_name?,
      grounded_many takes_pattern?, grounded_many hargument, grounded_many htypeArgument,
      grounded_many takes_member?, grounded_many takes_decl?⟩
  · obtain ⟨es, -, -, heof, -⟩ := yields_file hf
    exact heof

end Parse
end FrontEnd
