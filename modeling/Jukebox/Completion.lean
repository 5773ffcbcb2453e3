import Jukebox.Query.Parser

/-!
Completion of the word at the end of a text: keywords are offered where one may come, and values
of the library elsewhere.
-/

set_option autoImplicit false

namespace Jukebox

structure Lookup where
  list : NameList
  start : Option Text
  deriving DecidableEq, Repr

inductive Wanted where
  | keywords (start : Text)
  | values (lookup : Lookup)
  deriving DecidableEq, Repr

def Cursor.wanted (c : Cursor) : Wanted :=
  match c.word with
  | .keyword => .keywords (c.typed.getD [])
  | .name list => .values ⟨list, c.typed⟩

def Query.lookups (t : Text) : List Lookup :=
  match (cursor t).wanted with
  | .keywords _ => []
  | .values lookup => [lookup]

/-- The completions of a text over a source of values, sorted and without repeats. The source is
asked only where values are wanted, and fails for the whole. -/
def Query.completions {m : Type → Type} [Monad m] (source : Lookup → m (List Text)) (t : Text) :
    m (List Text) := do
  let values ← match (cursor t).wanted with
    | .keywords start => pure (Keyword.startingWith start)
    | .values lookup => source lookup
  return Text.collapse (Text.sort values)

end Jukebox
