import Jukebox.Completion
import Jukebox.Library.Comparison
import Jukebox.Path
import Jukebox.Plan.OfQuery
import Jukebox.Statement.Limits

/-!
A music library: a catalogue together with the directory that its tracks are in. Paths inside
that directory are stored without it.
-/

set_option autoImplicit false

namespace Jukebox

structure Library where
  home : OsText
  catalogue : Catalogue
  deriving DecidableEq, Repr

inductive SelectError where
  | query (e : ParseError)
  | statement (e : StatementError)
  deriving DecidableEq, Repr

namespace Library

def new (home : OsText) : Library := ⟨home, .empty⟩

def remainder (lib : Library) (path : OsText) : OsText := (Path.relativeTo? lib.home path).getD path

/-- Paths are stored as texts, and lose what is none in them. -/
def storedPath (lib : Library) (path : OsText) : Text := (lib.remainder path).lossy

def add (lib : Library) (t : Track) : Addition × Library :=
  let (answer, c) := lib.catalogue.add (lib.storedPath t.path) t
  (answer, { lib with catalogue := c })

def count (lib : Library) : Nat := lib.catalogue.tracks.length

def locate (lib : Library) (stored : Text) : OsText := Path.join lib.home (Text.utf8 stored)

def paths (lib : Library) (seed : Nat) (p : Plan) : List OsText :=
  (lib.catalogue.found seed p).map fun t => lib.locate t.path

def failure? (lib : Library) (p : Plan) : Option StatementError :=
  p.refusal?.or (if lib.catalogue.comparisonFails p then some .operandTooLong else none)

def runOne (lib : Library) (seed : Nat) (p : Plan) : Except SelectError (List OsText) :=
  match lib.failure? p with
  | some e => .error (.statement e)
  | none => .ok (lib.paths seed p)

/-- The paths that each plan finds. One plan that fails makes them all fail. -/
def runEach (lib : Library) (seed : Nat) (ps : List Plan) :
    Except SelectError (List (List OsText)) :=
  ps.mapM (lib.runOne seed)

def run (lib : Library) (seed : Nat) (ps : List Plan) : Except SelectError (List OsText) :=
  (lib.runEach seed ps).map List.flatten

def plans (t : Text) : Except SelectError (List Plan) := (Query.compile t).mapError .query

def select (lib : Library) (seed : Nat) (t : Text) : Except SelectError (List OsText) :=
  (plans t).bind (lib.run seed)

def column (lib : Library) : NameList → List Text
  | .titles => lib.catalogue.tracks.map Catalogue.TrackRow.title
  | .albums => lib.catalogue.albums.map Catalogue.AlbumRow.title
  | .artists => lib.catalogue.artists.map Catalogue.ArtistRow.name

def startingWith (start : Text) : Text := Like.escape start ++ ['%']

def values (lib : Library) (l : Lookup) : List Text :=
  ((lib.column l.list).filter (Like.test (startingWith (l.start.getD [])))).eraseDups

def lookUp (lib : Library) (l : Lookup) : Except StatementError (List Text) :=
  if Like.tooLong (startingWith (l.start.getD [])) && !(lib.column l.list).isEmpty then
    .error .operandTooLong
  else .ok (lib.values l)

def completions (lib : Library) (t : Text) : Except StatementError (List Text) :=
  Query.completions lib.lookUp t

end Library

end Jukebox
