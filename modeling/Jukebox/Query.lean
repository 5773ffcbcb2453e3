import Jukebox.Lexeme

/-!
A query names tracks by title, and may narrow them by album and by artist. Queries form a chain:
`a and b or c` is `a and (b or c)`.
-/

set_option autoImplicit false

namespace Jukebox

def matchAll : Text := ['.']

/-- How a query goes on: with tracks that must match the rest too, or with the tracks of the rest
after its own. -/
inductive Link where
  | and
  | or
  deriving DecidableEq, Repr

def Link.keyword : Link → Keyword
  | .and => .and
  | .or => .or

structure Selection where
  titles : List Text
  albums : Option (List Text)
  ordered : Bool
  artists : Option (List Text)
  shuffle : Bool
  deriving DecidableEq, Repr

def Selection.ofTitles (titles : List Text) : Selection := ⟨titles, none, false, none, false⟩

inductive Query where
  | last (s : Selection)
  | link (s : Selection) (l : Link) (rest : Query)
  deriving DecidableEq, Repr

namespace Query

def head : Query → Selection
  | .last s | .link s _ _ => s

def tail : Query → List (Link × Selection)
  | .last _ => []
  | .link _ l rest => (l, rest.head) :: rest.tail

def append (l : Link) (more : Query) : Query → Query
  | .last s => .link s l more
  | .link s m rest => .link s m (append l more rest)

def ofList : Selection → List (Link × Selection) → Query
  | s, [] => .last s
  | s, (l, t) :: more => .link s l (ofList t more)

theorem ofList_head_tail (q : Query) : ofList q.head q.tail = q := by
  induction q with
  | last s => rfl
  | link s l rest ih => exact congrArg (Query.link s l) ih

end Query

/-- A name as written in a query: one that is spelled like a keyword gets a colon in front. -/
def writeName (name : Text) : Text :=
  if name ∈ Keyword.all.map Keyword.text then ':' :: name else name

def writeNames (names : List Text) : Text := Text.join ", " (names.map writeName)

def Selection.render (s : Selection) : Text :=
  let albums := match s.albums with
    | some names =>
      " on ".toList ++ writeNames names ++ if s.ordered then " ordered".toList else []
    | none => []
  let artists := match s.artists with
    | some names => " by ".toList ++ writeNames names
    | none => []
  let shuffle := if s.shuffle then " shuffle".toList else []
  writeNames s.titles ++ albums ++ artists ++ shuffle

def Query.render : Query → Text
  | .last s => s.render
  | .link s l rest => s.render ++ [' '] ++ l.keyword.text ++ [' '] ++ rest.render

end Jukebox
