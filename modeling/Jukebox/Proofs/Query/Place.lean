import Jukebox.Query.Parser

set_option autoImplicit false

namespace Jukebox

inductive Place where
  | start (linked : Bool)
  | wanting (list : NameList)
  | named (list : NameList) (name : Lexeme)
  | ordered
  | shuffled
  deriving DecidableEq, Repr

namespace Selection

def empty : Selection := ofTitles []

def openList (s : Selection) : NameList → Selection
  | .titles => s
  | .albums => { s with albums := some [] }
  | .artists => { s with artists := some [] }

def addName (s : Selection) (name : Text) : NameList → Selection
  | .titles => { s with titles := s.titles ++ [name] }
  | .albums => { s with albums := s.albums.map (· ++ [name]) }
  | .artists => { s with artists := s.artists.map (· ++ [name]) }

end Selection

inductive Move where
  | go (p : Place) (s : Selection)
  | link (l : Link)
  | fail

namespace Place

/-- The kinds that a reader asks for. Before a selection it asks for a name, though `on` and `by`
may stand there too. -/
def expected (p : Place) (s : Selection) : List Kind :=
  let links : List Kind := [.keyword .and, .keyword .or]
  let onAlbums : List Kind := if s.albums.isNone then [.keyword .onAlbums] else []
  let byArtists : List Kind := if s.artists.isNone then [.keyword .byArtists] else []
  match p with
  | .start _ | .wanting _ => [.name]
  | .named .titles _ => links ++ onAlbums ++ byArtists ++ [.keyword .shuffle, .comma]
  | .named .albums _ => links ++ byArtists ++ [.keyword .ordered, .keyword .shuffle, .comma]
  | .named .artists _ => links ++ onAlbums ++ [.keyword .shuffle, .comma]
  | .ordered => links ++ byArtists ++ [.keyword .shuffle]
  | .shuffled => links

def mayEnd : Place → Bool
  | .start _ | .wanting _ => false
  | .named _ _ | .ordered | .shuffled => true

def cursor : Place → Cursor
  | .start false => ⟨.keyword, none⟩
  | .start true => ⟨.name .titles, none⟩
  | .wanting list => ⟨.name list, none⟩
  | .named list name => ⟨.name list, some name⟩
  | .ordered | .shuffled => ⟨.keyword, none⟩

/-- The word at a lexeme that may not stand here: a name where a keyword could have come is the
start of one. -/
def cursorAt (p : Place) (l : Lexeme) : Cursor :=
  if p.mayEnd ∧ l.kind = .name then ⟨.keyword, some l⟩ else p.cursor

def follow (s : Selection) : Keyword → Move
  | .and => .link .and
  | .or => .link .or
  | .onAlbums => .go (.wanting .albums) (s.openList .albums)
  | .byArtists => .go (.wanting .artists) (s.openList .artists)
  | .ordered => .go .ordered { s with ordered := true }
  | .shuffle => .go .shuffled { s with shuffle := true }

/-- A selection that starts with `on` or `by` takes tracks of any title. -/
def move (p : Place) (s : Selection) (l : Lexeme) : Move :=
  match p, l.kind with
  | .start _, .name => .go (.named .titles l) (s.addName l.text .titles)
  | .start _, .keyword .onAlbums => follow (s.addName matchAll .titles) .onAlbums
  | .start _, .keyword .byArtists => follow (s.addName matchAll .titles) .byArtists
  | .wanting list, .name => .go (.named list l) (s.addName l.text list)
  | .named list _, .comma => .go (.wanting list) s
  | p, .keyword k => if p.mayEnd ∧ Kind.keyword k ∈ p.expected s then follow s k else .fail
  | _, _ => .fail

end Place

def readQuery (p : Place) (s : Selection) : List Lexeme → Except ParseError Query
  | [] => if p.mayEnd then .ok (.last s) else .error (.endOfText (p.expected s))
  | l :: ls => match p.move s l with
    | .go p s => readQuery p s ls
    | .link link => (readQuery (.start true) .empty ls).map (.link s link)
    | .fail => .error (.unexpected l (p.expected s))

def readCursor (p : Place) (s : Selection) : List Lexeme → Cursor
  | [] => p.cursor
  | l :: ls => match p.move s l with
    | .go p s => readCursor p s ls
    | .link _ => readCursor (.start true) .empty ls
    | .fail => p.cursorAt l

end Jukebox
