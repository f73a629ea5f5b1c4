import FrontEnd.Diagnostic
import FrontEnd.Feed

/-!
# A text read rune by rune

A `Source` stands on one rune of its input and knows the position of that rune.
Arriving at a rune is what makes the bytes of that rune be read, so a failing read and
a malformed byte are reported on arrival, at the position arrived at, and in this
order.
-/

namespace FrontEnd

structure Source where
  feed : Feed
  pos : Position
  /-- What was reported on arriving here. -/
  arrival : List Diagnostic
  /-- All that has been reported so far. -/
  log : Array Diagnostic

namespace Source

def byteOrderMark : Char := '\uFEFF'

def pieceProblem (w : Window) : Option Problem :=
  match w.piece with
  | some .malformed => some .malformedEncoding
  | some (.scalar c) =>
    if c = byteOrderMark && 0 < w.offset then some .misplacedByteOrderMark else none
  | none => none

/-- Brings the rune at the head into view. -/
def arrive (s : Source) : Source :=
  let (feed, failure) := s.feed.fill
  let problems := (failure.map Problem.readFailure).toList ++ (pieceProblem feed.window).toList
  let arrival := problems.map (Diagnostic.mk s.pos)
  { s with feed := feed, arrival := arrival, log := s.log ++ arrival }

def rune (s : Source) : Option Char :=
  s.feed.window.piece.map Utf8.Piece.rune

def step (s : Source) (n : Nat) : Source :=
  { s with feed := { s.feed with window := s.feed.window.step n } }

/-- The beginning of an input.  A byte order mark there is passed over and has no
position. -/
def ofReads (reads : List Read) : Source :=
  let s := arrive ⟨.ofReads reads, .start, [], #[]⟩
  if s.rune = some byteOrderMark then
    let t := (s.step byteOrderMark.utf8Size).arrive
    { t with arrival := s.arrival ++ t.arrival }
  else s

/-- The next rune.  At the end there is none, and the source stays where it is. -/
def advance (s : Source) : Source :=
  match s.feed.window.piece with
  | none => s
  | some p => arrive { s.step p.width with pos := s.pos.after p.rune }

def advanceBy : Nat → Source → Source
  | 0, s => s
  | n + 1, s => advanceBy n s.advance

def take : Nat → Source → List Char × Source
  | 0, s => ([], s)
  | n + 1, s =>
    match s.rune with
    | none => ([], s)
    | some c =>
      let (cs, t) := take n s.advance
      (c :: cs, t)

def mark (s : Source) : Source :=
  { s with feed := { s.feed with window := s.feed.window.setMark } }

/-- The text from the marked rune up to the current one, which it leaves out. -/
def segment (s : Source) : String :=
  String.ofList s.feed.window.segment

def reportAt (s : Source) (pos : Position) (problem : Problem) : Source :=
  { s with log := s.log.push ⟨pos, problem⟩ }

def report (s : Source) (problem : Problem) : Source :=
  s.reportAt s.pos problem

def pending (s : Source) : Nat :=
  s.feed.pending

theorem pending_arrive_le (s : Source) : s.arrive.pending ≤ s.pending :=
  s.feed.pending_fill_le

/-- Every rune takes a byte at least, so a source comes to its end. -/
theorem pending_advance_lt {s : Source} {c : Char} (h : s.rune = some c) :
    s.advance.pending < s.pending := by
  unfold rune at h
  obtain ⟨p, hp, -⟩ := Option.map_eq_some_iff.1 h
  have h₁ := Window.ahead_step_lt hp
  have h₂ := pending_arrive_le { s.step p.width with pos := s.pos.after p.rune }
  simp only [advance, hp]
  simp only [pending, Feed.pending, step] at h₁ h₂ ⊢
  omega

end Source
end FrontEnd
