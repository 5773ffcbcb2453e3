/-!
A stream that can be looked into before it is read. Items are pulled from the source into a buffer
when someone looks at them, and leave the buffer when they are read or dropped.
-/

set_option autoImplicit false

namespace Jukebox

structure Stream (α : Type) where
  buffer : List α
  source : List α
  deriving DecidableEq, Repr

namespace Stream

variable {α : Type}

def ofList (items : List α) : Stream α := ⟨[], items⟩

def toList (s : Stream α) : List α := s.buffer ++ s.source

@[simp] theorem toList_ofList (items : List α) : (ofList items).toList = items := rfl

def fill (n : Nat) (s : Stream α) : Stream α :=
  let missing := n - s.buffer.length
  ⟨s.buffer ++ s.source.take missing, s.source.drop missing⟩

@[simp] theorem toList_fill (n : Nat) (s : Stream α) : (s.fill n).toList = s.toList := by
  simp [fill, toList]

def next : Stream α → Option α × Stream α
  | ⟨x :: buffer, source⟩ => (some x, ⟨buffer, source⟩)
  | ⟨[], x :: source⟩ => (some x, ⟨[], source⟩)
  | ⟨[], []⟩ => (none, ⟨[], []⟩)

def peek (n : Nat) (s : Stream α) : List α × Stream α :=
  let filled := s.fill n
  (filled.buffer.take n, filled)

def peekOne (s : Stream α) : Option α × Stream α :=
  let (items, s) := s.peek 1
  (items.head?, s)

/-- Drops up to `n` items of the buffer, and none that were never looked at. -/
def consume (n : Nat) (s : Stream α) : Stream α := ⟨s.buffer.drop n, s.source⟩

def isExhausted (s : Stream α) : Bool × Stream α :=
  let (item, s) := s.peekOne
  (item.isNone, s)

/-- A walk along a stream that reads each item only when it goes on to the one after. -/
structure Walk (α : Type) where
  stream : Stream α
  pending : Bool

def walk (s : Stream α) : Walk α := ⟨s, false⟩

def Walk.next (w : Walk α) : Option α × Walk α :=
  let s := if w.pending then w.stream.consume 1 else w.stream
  let (item, s) := s.peekOne
  (item, ⟨s, item.isSome⟩)

def Walk.steps : Nat → Walk α → List (Option α) × Walk α
  | 0, w => ([], w)
  | n + 1, w =>
    let (item, w) := w.next
    let (items, w) := w.steps n
    (item :: items, w)

/-- The answers of a walk that is left after `n` steps, and what it leaves of the stream. -/
def lookahead (n : Nat) (s : Stream α) : List (Option α) × Stream α :=
  let (items, w) := s.walk.steps n
  (items, w.stream)

end Stream

end Jukebox
