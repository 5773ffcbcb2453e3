import Jukebox.Like

set_option autoImplicit false

namespace Jukebox

structure Pattern where
  atStart : Bool
  body : Text
  atEnd : Bool
  deriving DecidableEq, Repr

namespace Pattern

def closing (t : Text) : Text × Bool :=
  if t.getLast? = some '$' then (t.dropLast, true) else (t, false)

theorem closing_append (t : Text) : (closing t).1 ++ (if (closing t).2 then ['$'] else []) = t := by
  unfold closing
  split
  · next h =>
    obtain ⟨ys, rfl⟩ := List.getLast?_eq_some_iff.1 h
    simp
  · simp

def ofText : Text → Pattern
  | '^' :: rest => ⟨true, (closing rest).1, (closing rest).2⟩
  | t => ⟨false, (closing t).1, (closing t).2⟩

def text (p : Pattern) : Text :=
  (if p.atStart then ['^'] else []) ++ p.body ++ (if p.atEnd then ['$'] else [])

@[simp] theorem text_ofText (t : Text) : (ofText t).text = t := by
  unfold ofText
  split
  · next rest => simpa [text] using closing_append rest
  · simpa [text] using closing_append t

theorem ofText_injective {s t : Text} (h : ofText s = ofText t) : s = t := by
  rw [← text_ofText s, h, text_ofText]

def parts (p : Pattern) : List Text := p.body.splitOn '.'

def like (p : Pattern) : Text :=
  (if p.atStart then [] else ['%']) ++ ['%'].intercalate (p.parts.map Like.escape) ++
    (if p.atEnd then [] else ['%'])

def admits (p : Pattern) (value : Text) : Bool := Like.test p.like value

end Pattern

end Jukebox
