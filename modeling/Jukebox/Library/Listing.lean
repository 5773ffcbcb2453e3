import Jukebox.Library.Database
import Jukebox.Library.Rows
import Jukebox.Toml.Writer

set_option autoImplicit false

namespace Jukebox

namespace Catalogue

def track (c : Catalogue) (r : TrackRow) : Track where
  path := Text.utf8 r.path
  title := r.title
  album := (c.entriesOf r).head?.map fun (_, a) => a.title
  number := (c.entriesOf r).head?.bind fun (e, _) => e.number
  artists := (c.artistsOf r).map ArtistRow.name

def listing (c : Catalogue) : List Track := c.tracks.map c.track

def ofListing (ts : List Track) : Catalogue := ts.foldl (fun c t => (c.add t.path.lossy t).2) .empty

end Catalogue

namespace Listing

def line (key : String) (value : Text) : Text := key.toList ++ " = ".toList ++ value ++ ['\n']

def line? (key : String) : Option Text → Text
  | some t => line key (Toml.writeText t)
  | none => []

def trackText (t : Track) : Text :=
  "\n[[track]]\n".toList ++ line "path" (Toml.writeText t.path.lossy) ++
    line "title" (Toml.writeText t.title) ++ line? "album" t.album ++
    line? "number" (t.number.map Text.ofNat) ++ line "artists" (Toml.writeList t.artists)

def optional? {α : Type} (read : Text → Option α) : Option Toml.Value → Option (Option α)
  | none => some none
  | some v => (v.text?.bind read).map some

def track? : Toml.Value → Option Track
  | .table entries => do
    let t : Toml.Table := ⟨entries⟩
    let path ← (← t.get? "path".toList).text?
    let title ← (← t.get? "title".toList).text?
    let album ← optional? some (t.get? "album".toList)
    let number ← optional? Text.toNat? (t.get? "number".toList)
    let artists ← (← (← t.get? "artists".toList).items?).mapM Toml.Value.text?
    return ⟨Text.utf8 path, title, album, number, artists⟩
  | _ => none

end Listing

namespace Database

def text (d : Database) : Text :=
  Listing.line? "version" (d.version.map Text.ofInt) ++
    d.catalogue.listing.flatMap Listing.trackText

def ofText? (t : Text) : Option Database := do
  let table ← Toml.read? t
  let version ← Listing.optional? Text.toInt? (table.get? "version".toList)
  let tracks := ((table.get? "track".toList).bind Toml.Value.items?).getD []
  return ⟨version, .ofListing (← tracks.mapM Listing.track?)⟩

end Database

end Jukebox
