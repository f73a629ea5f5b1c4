import FrontEnd.Lexeme
import FrontEnd.Text

/-!
# The tokens of a text

A `Lexer` stands in a text and takes one token at a time.  Before a token it passes over
a gap: blanks, newlines that separate nothing, and runes that begin no token, which are
reported.  A newline separates only after a token that can end a construct and outside
parentheses.

Reports have two origins, arriving at a rune and classifying it, and each is made once a
certain number of runes has been read.  They come in the order of these numbers, and of
two with the same number the one made on arrival comes first.
-/

namespace FrontEnd

/-- A token of a text, where it stands, and what is reported on the way to its end. -/
structure Entry where
  token : Token
  pos : Position
  /-- The blanks before it began in the first column, or went on over a newline. -/
  blank : Bool
  /-- The number of parentheses open after it, counted in thirty-two bits and assumed to be
  less than `2 ^ 32` as well. -/
  depth : Nat
  reports : List Diagnostic
deriving DecidableEq, Repr

namespace Entry

def keepsNewline (e : Entry) : Bool :=
  e.token.kind.endsLine && e.depth = 0

end Entry

/-- The number of open parentheses after a token.  One that closes none is let pass. -/
def depthAfter (depth : Nat) : TokenKind → Nat
  | .parenLeft => depth + 1
  | .parenRight => depth - 1
  | _ => depth

def isSpace (c : Char) : Bool :=
  c = ' ' || c = '\t' || c = '\r'

/-- A rune that is neither blank nor the beginning of a token. -/
def isInvalid (c : Char) : Bool :=
  !isSpace c && !beginsToken c

/-- Whether `c` is passed over between tokens, where `keep` says whether a newline is a
token. -/
def inGap (keep : Bool) (c : Char) : Bool :=
  isSpace c || (c = '\n' && !keep) || isInvalid c

/-- The reports of the invalid runes of a gap whose first rune has index `k` and stands
at `p`. -/
def gapReports (k : Nat) (p : Position) : List Char → List (Nat × Diagnostic)
  | [] => []
  | c :: cs =>
    let rest := gapReports (k + 1) (p.after c) cs
    if isInvalid c then (k, ⟨p, .invalidCharacter c⟩) :: rest else rest

/-- Where the last run of blanks in a gap begins.  The gap stands at `p`, and `start` is
where the run that reaches up to `p` began. -/
def blankStart (start p : Position) : List Char → Position
  | [] => start
  | c :: cs =>
    let q := p.after c
    blankStart (if isInvalid c then q else start) q cs

namespace Lexeme

/-- The token at the front of a text that is at its end or begins with a token. -/
def front : List Char → Lexeme
  | [] => ⟨.eof, [], none⟩
  | c :: cs => scan c cs

end Lexeme

structure Lexer where
  /-- The last token taken. -/
  current : Entry
  rest : List Char
  /-- The number of runes before the rest. -/
  passed : Nat
  /-- Where the rest begins. -/
  pos : Position
  /-- What will be reported on arriving at the runes to come. -/
  pending : List (Nat × Diagnostic)
  /-- All that has been reported so far. -/
  log : Array Diagnostic
deriving Repr

namespace Lexer

/-- Before the first token.  The current one is that of an empty text. -/
def ofText (t : Text) : Lexer :=
  let (due, pending) := t.reports.span (·.1 = 0)
  let reports := due.map (·.2)
  { current := ⟨.eof, .start, true, 0, reports⟩
    rest := t.runes
    passed := 0
    pos := .start
    pending := pending
    log := reports.toArray }

/-- Takes the next token.  At the end of the text that is the end again. -/
def next (x : Lexer) : Lexer :=
  let keep := x.current.keepsNewline
  let gap := x.rest.takeWhile (inGap keep)
  let rest := x.rest.dropWhile (inGap keep)
  let pos := x.pos.afterAll gap
  let start := blankStart x.pos x.pos gap
  let first := x.passed + gap.length
  let lexeme := Lexeme.front rest
  let passed := first + lexeme.runes.length
  let flaws := lexeme.flaw.toList.map fun f =>
    (first + f.seen, ⟨pos.right f.offset, f.problem⟩)
  let (due, pending) := x.pending.span (·.1 ≤ passed)
  let made := gapReports x.passed x.pos gap ++ flaws
  let reports := (due.merge made fun a b => a.1 ≤ b.1).map (·.2)
  { current :=
      { token := lexeme.token
        pos := pos
        blank := start.line < pos.line || start.col = 1
        depth := depthAfter x.current.depth lexeme.kind
        reports := reports }
    rest := rest.drop lexeme.runes.length
    passed := passed
    pos := pos.afterAll lexeme.runes
    pending := pending
    log := x.log ++ reports }

def nextBy : Nat → Lexer → Lexer
  | 0, x => x
  | n + 1, x => nextBy n x.next

def reportAt (x : Lexer) (pos : Position) (problem : Problem) : Lexer :=
  { x with log := x.log.push ⟨pos, problem⟩ }

theorem length_dropWhile_le (p : Char → Bool) (cs : List Char) :
    (cs.dropWhile p).length ≤ cs.length :=
  (List.dropWhile_suffix p).length_le

/-- Every token but the last takes a rune at least. -/
theorem length_rest_next_lt {x : Lexer} (h : x.next.current.token.kind ≠ .eof) :
    x.next.rest.length < x.rest.length := by
  have hle := length_dropWhile_le (inGap x.current.keepsNewline) x.rest
  simp only [next] at h ⊢
  cases hr : x.rest.dropWhile (inGap x.current.keepsNewline) with
  | nil => simp [hr, Lexeme.front, Lexeme.token] at h
  | cons c cs =>
    have hn := List.length_pos_iff.2 (Lexeme.scan_runes_ne_nil c cs)
    simp only [hr, List.length_cons] at hle
    simp only [Lexeme.front, List.length_drop, List.length_cons]
    omega

end Lexer

/-- All tokens of a text: those before its end, and the end. -/
structure Tokens where
  entries : List Entry
  last : Entry
  last_eof : last.token.kind = .eof

namespace Tokens

def ofLexer (x : Lexer) : Tokens :=
  let y := x.next
  if h : y.current.token.kind = .eof then ⟨[], y.current, h⟩
  else
    let ts := ofLexer y
    { ts with entries := y.current :: ts.entries }
termination_by x.rest.length
decreasing_by exact Lexer.length_rest_next_lt h

def ofText (t : Text) : Tokens :=
  ofLexer (.ofText t)

end Tokens
end FrontEnd
