import Jukebox.Text.Utf8

set_option autoImplicit false

namespace Jukebox

structure Track where
  path : OsText
  title : Text
  album : Option Text
  number : Option Nat
  artists : List Text
  deriving DecidableEq, Repr

namespace Catalogue

structure TrackRow where
  id : Nat
  title : Text
  path : Text
  deriving DecidableEq, Repr

structure AlbumRow where
  id : Nat
  title : Text
  deriving DecidableEq, Repr

structure ArtistRow where
  id : Nat
  name : Text
  deriving DecidableEq, Repr

structure Entry where
  album : Nat
  track : Nat
  number : Option Nat
  deriving DecidableEq, Repr

structure Credit where
  track : Nat
  artist : Nat
  deriving DecidableEq, Repr

end Catalogue

open Catalogue in
structure Catalogue where
  tracks : List TrackRow
  albums : List AlbumRow
  artists : List ArtistRow
  entries : List Entry
  credits : List Credit
  deriving DecidableEq, Repr

inductive Addition where
  | added (id : Nat)
  | existing (id : Nat)
  deriving DecidableEq, Repr

namespace Catalogue

def empty : Catalogue := ⟨[], [], [], [], []⟩

def trackAt? (c : Catalogue) (path : Text) : Option Nat :=
  (c.tracks.find? (·.path = path)).map TrackRow.id

def ensureAlbum (c : Catalogue) (title : Text) : Nat × Catalogue :=
  match c.albums.find? (·.title = title) with
  | some a => (a.id, c)
  | none =>
    let id := c.albums.length + 1
    (id, { c with albums := c.albums ++ [⟨id, title⟩] })

def ensureArtist (c : Catalogue) (name : Text) : Nat × Catalogue :=
  match c.artists.find? (·.name = name) with
  | some a => (a.id, c)
  | none =>
    let id := c.artists.length + 1
    (id, { c with artists := c.artists ++ [⟨id, name⟩] })

def putOnAlbum (c : Catalogue) (track : Nat) (title : Text) (number : Option Nat) : Catalogue :=
  let (album, c) := c.ensureAlbum title
  { c with entries := c.entries ++ [⟨album, track, number⟩] }

def credit (c : Catalogue) (track : Nat) (name : Text) : Catalogue :=
  let (artist, c) := c.ensureArtist name
  { c with credits := c.credits ++ [⟨track, artist⟩] }

/-- Adds a track under a path, unless that path is taken. The number is kept only with an album. -/
def add (c : Catalogue) (path : Text) (t : Track) : Addition × Catalogue :=
  match c.trackAt? path with
  | some id => (.existing id, c)
  | none =>
    let id := c.tracks.length + 1
    let c := { c with tracks := c.tracks ++ [⟨id, t.title, path⟩] }
    let c := match t.album with
      | some title => c.putOnAlbum id title t.number
      | none => c
    (.added id, t.artists.foldl (·.credit id ·) c)

end Catalogue

end Jukebox
