import FrontEnd.Proofs.Lexing.Lookahead
import FrontEnd.Proofs.Lexing.Partition

/-!
# Texts that begin alike

Two texts that begin with the same runes have the same tokens there, if behind these
runes one has a token that ends or the other what ends any token.
-/

namespace FrontEnd
namespace Lexer

/-- The gap ends where the first rune stands that does not belong to it. -/
theorem gap_eq {x : Lexer} {gap ahead : List Char} (h : x.rest = gap ++ ahead)
    (hgap : ∀ c ∈ gap, inGap x.current.keepsNewline c = true)
    (hahead : ∀ c, ahead.head? = some c → inGap x.current.keepsNewline c = false) :
    x.gap = gap ∧ x.ahead = ahead := by
  constructor
  · rw [Lexer.gap, h, takeWhile_append_head hgap hahead]
  · rw [Lexer.ahead, h, dropWhile_append_head hgap hahead]

theorem head_ahead (x : Lexer) :
    ∀ c, x.ahead.head? = some c → inGap x.current.keepsNewline c = false :=
  head_dropWhile _ _

/-- A token that is not the end begins with the rune behind the gap. -/
theorem exists_runes {x : Lexer} {c : Char} {cs : List Char} (h : x.ahead = c :: cs) :
    ∃ ds, x.lexeme.runes = c :: ds := by
  have hruns := x.lexeme_append_rest
  rw [h, lexeme_eq_scan h] at hruns
  rw [lexeme_eq_scan h]
  cases hr : (Lexeme.scan c cs).runes with
  | nil => exact absurd hr (Lexeme.scan_runes_ne_nil c cs)
  | cons d ds =>
    rw [hr] at hruns
    exact ⟨ds, by rw [(List.cons.inj hruns).1]⟩

theorem nextBy_succ (n : Nat) (x : Lexer) : x.nextBy (n + 1) = (x.nextBy n).next := by
  induction n generalizing x with
  | zero => rfl
  | succ n ih => exact ih x.next

theorem nextBy_add (m n : Nat) (x : Lexer) : x.nextBy (m + n) = (x.nextBy m).nextBy n := by
  induction m generalizing x with
  | zero => rw [Nat.zero_add]; rfl
  | succ m ih => rw [Nat.succ_add]; exact ih x.next

theorem rest_nextBy (n : Nat) (x : Lexer) : ∃ w, x.rest = w ++ (x.nextBy n).rest := by
  induction n generalizing x with
  | zero => exact ⟨[], rfl⟩
  | succ n ih =>
    obtain ⟨w, hw⟩ := ih x.next
    refine ⟨x.gap ++ (x.lexeme.runes ++ w), ?_⟩
    rw [x.rest_eq, hw]
    simp only [List.append_assoc]
    rfl

/-- `x'` stands where `x` does, and before both is `u`, with `q` behind it for `x` and `q'`
for `x'`. -/
structure Shares (u q q' : List Char) (x x' : Lexer) : Prop where
  token : x'.current.token = x.current.token
  depth : x'.current.depth = x.current.depth
  pos : x'.pos = x.pos
  rest : x.rest = u ++ q
  rest' : x'.rest = u ++ q'

/-- The next token is the same, what is reported on the way to it apart. -/
structure SameNext (x x' : Lexer) : Prop where
  gap : x'.gap = x.gap
  lexeme : x'.lexeme = x.lexeme
  token : x'.next.current.token = x.next.current.token
  pos : x'.next.current.pos = x.next.current.pos

namespace Shares

variable {u m q q' : List Char} {x x' : Lexer}

theorem keeps (h : Shares u q q' x x') :
    x'.current.keepsNewline = x.current.keepsNewline := by
  unfold Entry.keepsNewline
  rw [h.token, h.depth]

theorem next (h : Shares u q q' x x') (hq' : Break q')
    (hx : x.next.current.token.kind ≠ .eof) (hm : x.next.rest = m ++ q) :
    SameNext x x' ∧ Shares m q q' x.next x'.next := by
  obtain ⟨c, cs, ha, -⟩ := exists_ahead hx
  have hlex := lexeme_eq_scan ha
  have hruns := x.lexeme_append_rest
  rw [hm, ha, hlex] at hruns
  have hu : u = x.gap ++ ((Lexeme.scan c cs).runes ++ m) := by
    have hrest := x.rest_eq
    rw [h.rest, hm, hlex, ← List.append_assoc, ← List.append_assoc] at hrest
    rw [List.append_cancel_right hrest, List.append_assoc]
  obtain ⟨cs', hcs'⟩ : ∃ cs', (Lexeme.scan c cs).runes ++ (m ++ q') = c :: cs' := by
    obtain ⟨ds, hds⟩ := x.exists_runes ha
    rw [← hlex, hds]
    exact ⟨ds ++ (m ++ q'), rfl⟩
  have hrest' : x'.rest = x.gap ++ (c :: cs') := by
    rw [h.rest', hu, ← hcs']
    simp only [List.append_assoc]
  have hhead : ∀ d, (c :: cs').head? = some d → inGap x'.current.keepsNewline d = false := by
    intro d hd
    rw [h.keeps]
    refine x.head_ahead d ?_
    rw [ha]
    exact hd
  obtain ⟨hgap, hahead⟩ := gap_eq hrest' (h.keeps ▸ fun d hd => x.inGap_of_mem_gap hd) hhead
  have hsame : x'.lexeme = x.lexeme := by
    rw [lexeme_eq_scan hahead, hlex]
    exact Lexeme.scan_alike hruns ((show Alike q q' from Or.inr hq').append m) hcs'
  have hpos : x'.next.current.pos = x.next.current.pos := by
    rw [x'.pos_current_next, x.pos_current_next, hgap, h.pos]
  have htoken : x'.next.current.token = x.next.current.token := by
    rw [x'.token_next, x.token_next, hsame]
  refine ⟨⟨hgap, hsame, htoken, hpos⟩, htoken, ?_, ?_, hm, ?_⟩
  · rw [x'.depth_next, x.depth_next, hsame, h.depth]
  · rw [x'.pos_next, x.pos_next, hpos, hsame]
  · have happ := x'.lexeme_append_rest
    rw [hahead, hsame, hlex, ← hcs'] at happ
    exact List.append_cancel_left happ

/-- The tokens that lie within the common part are the same. -/
theorem nextBy (h : Shares u q q' x x') (hq' : Break q') {n : Nat}
    (hx : ∀ i < n, (x.nextBy (i + 1)).current.token.kind ≠ .eof)
    (hm : (x.nextBy n).rest = m ++ q) :
    Shares m q q' (x.nextBy n) (x'.nextBy n) ∧ ∀ i < n, SameNext (x.nextBy i) (x'.nextBy i) := by
  induction n generalizing u x x' with
  | zero =>
    have hum : u = m := List.append_cancel_right (h.rest.symm.trans hm)
    exact ⟨hum ▸ h, nofun⟩
  | succ n ih =>
    obtain ⟨w, hw⟩ := rest_nextBy n x.next
    have hm' : (x.next.nextBy n).rest = m ++ q := hm
    rw [hm', ← List.append_assoc] at hw
    obtain ⟨hsame, hnext⟩ := h.next hq' (hx 0 (Nat.zero_lt_succ n)) hw
    obtain ⟨hlast, hall⟩ := ih hnext (fun i hi => hx (i + 1) (Nat.succ_lt_succ hi)) hm
    refine ⟨hlast, fun i hi => ?_⟩
    cases i with
    | zero => exact hsame
    | succ i => exact hall i (Nat.lt_of_succ_lt_succ hi)

end Shares
end Lexer

namespace Tokens

def entry (ts : Tokens) (i : Nat) : Entry :=
  ts.entries.getD i ts.last

theorem entry_ofLexer (x : Lexer) {i : Nat} (hi : i ≤ (ofLexer x).entries.length) :
    (ofLexer x).entry i = (x.nextBy (i + 1)).current := by
  have hall := congrArg (·[i]?) (eq_nextBy x)
  have hi' : i < (ofLexer x).entries.length + 1 := Nat.lt_succ_of_le hi
  simp only [List.getElem?_map, List.getElem?_range hi', Option.map_some] at hall
  unfold entry
  rw [List.getD_eq_getElem?_getD]
  rcases Nat.lt_or_eq_of_le hi with hlt | heq
  · rw [List.getElem?_append_left hlt] at hall
    rw [hall, Option.getD_some]
  · rw [heq, List.getElem?_append_right (Nat.le_refl _)] at hall
    rw [heq, List.getElem?_eq_none (Nat.le_refl _), Option.getD_none]
    simpa using hall

theorem exists_nextBy (x : Lexer) :
    ∀ e ∈ (ofLexer x).entries, ∃ n, (x.nextBy n).next.current = e := by
  intro e he
  have hmem := List.mem_append_left [(ofLexer x).last] he
  rw [eq_nextBy] at hmem
  obtain ⟨n, -, hn⟩ := List.mem_map.1 hmem
  rw [Lexer.nextBy_succ] at hn
  exact ⟨n, hn⟩

/-- As many tokens are left as are taken before the end. -/
theorem le_length_iff (x : Lexer) (n : Nat) : n ≤ (ofLexer x).entries.length ↔
    ∀ i < n, (x.nextBy (i + 1)).current.token.kind ≠ .eof := by
  constructor
  · intro hn i hi
    rw [← entry_ofLexer x (by omega)]
    have hlt : i < (ofLexer x).entries.length := by omega
    unfold entry
    rw [List.getD_eq_getElem?_getD, List.getElem?_eq_getElem hlt, Option.getD_some]
    exact kind_ne_eof x _ (List.getElem_mem hlt)
  · intro h
    by_contra hn
    have hlast := h (ofLexer x).entries.length (by omega)
    rw [← entry_ofLexer x (Nat.le_refl _)] at hlast
    refine hlast ?_
    unfold entry
    rw [List.getD_eq_getElem?_getD, List.getElem?_eq_none (Nat.le_refl _), Option.getD_none]
    exact (ofLexer x).last_eof

/-- What is left behind some of the tokens are the tokens of what is left of the text. -/
theorem drop_ofLexer (x : Lexer) {n : Nat} (hn : n ≤ (ofLexer x).entries.length) :
    (ofLexer x).entries.drop n = (ofLexer (x.nextBy n)).entries := by
  induction n generalizing x with
  | zero => rfl
  | succ n ih =>
    have he : x.next.current.token.kind ≠ .eof := (le_length_iff x (n + 1)).1 hn 0 (by omega)
    have hmore := (ofLexer_more he).1
    rw [hmore, List.length_cons] at hn
    rw [hmore, List.drop_succ_cons, ih x.next (by omega)]
    rfl

end Tokens
end FrontEnd
