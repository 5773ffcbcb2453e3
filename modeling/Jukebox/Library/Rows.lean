import Jukebox.Library.Catalogue
import Jukebox.Plan.Sound

/-!
What a plan finds in a catalogue. Each track gives a row for every pairing of its albums and
artists, as far as they are joined; a track is found if one of its rows passes all filters and the
inner plan finds it too, and it sorts by the least value of each key over the rows that pass.
-/

set_option autoImplicit false

namespace Jukebox

inductive Cell where
  | null
  | number (n : Nat)
  | text (t : Text)
  deriving DecidableEq, Repr

namespace Cell

/-- No value comes first, then numbers, then texts by code point. -/
def le : Cell → Cell → Bool
  | .null, _ => true
  | .number _, .null => false
  | .number m, .number n => m ≤ n
  | .number _, .text _ => true
  | .text s, .text t => Text.le s t
  | .text _, _ => false

def shown? : Cell → Option Text
  | .null => none
  | .number n => some (Text.ofNat n)
  | .text t => some t

def least : List Cell → Cell
  | [] => .null
  | v :: vs => match v, least vs with
    | .null, w => w
    | v, .null => v
    | v, w => if v.le w then v else w

def listLe : List Cell → List Cell → Bool
  | [], _ => true
  | _ :: _, [] => false
  | v :: vs, w :: ws => if v = w then listLe vs ws else v.le w

end Cell

namespace Pattern

def admitsValue (p : Pattern) (v : Cell) : Bool :=
  match v.shown? with
  | some t => p.admits t
  | none => false

end Pattern

/-- A track with one of its albums and one of its artists, where these are joined. -/
structure Row where
  track : Catalogue.TrackRow
  album : Option (Catalogue.Entry × Catalogue.AlbumRow)
  artist : Option Catalogue.ArtistRow
  deriving DecidableEq, Repr

namespace Row

def value (r : Row) : Column → Cell
  | .title => .text r.track.title
  | .album => match r.album with
    | some (_, a) => .text a.title
    | none => .null
  | .number => match r.album with
    | some (⟨_, _, some n⟩, _) => .number n
    | _ => .null
  | .artist => match r.artist with
    | some a => .text a.name
    | none => .null

def passes (r : Row) (f : Filter) : Bool := f.patterns.any (·.admitsValue (r.value f.column))

/-- The place of the first pattern that admits the value, or the number of patterns. -/
def key (r : Row) : Key → Cell
  | .column c => r.value c
  | .rank c ps => .number (ps.findIdx (·.admitsValue (r.value c)))

end Row

namespace Catalogue

def entriesOf (c : Catalogue) (t : TrackRow) : List (Entry × AlbumRow) :=
  (c.entries.filter (·.track = t.id)).flatMap fun e =>
    (c.albums.filter (·.id = e.album)).map fun a => (e, a)

def artistsOf (c : Catalogue) (t : TrackRow) : List ArtistRow :=
  (c.credits.filter (·.track = t.id)).flatMap fun k => c.artists.filter (·.id = k.artist)

/-- The rows that a level makes of a row around it. What it does not join is taken from there. -/
def rows (c : Catalogue) (l : Level) (around : Row) : List Row :=
  let albums := if .albums ∈ l.joins then (c.entriesOf around.track).map some else [around.album]
  let artists := if .artists ∈ l.joins then (c.artistsOf around.track).map some else [around.artist]
  albums.flatMap fun a => artists.map fun b => ⟨around.track, a, b⟩

def levelRows (c : Catalogue) (l : Level) (around : Row) : List Row :=
  (c.rows l around).filter fun r => l.filters.all r.passes

/-- The rows of a plan that pass its filters and that its inner plan makes something of. An inner
plan that is sound by itself looks at nothing but the track, so it is asked only once. -/
def passing (c : Catalogue) : Plan → Row → List Row
  | .only l, around => c.levelRows l around
  | .within l inner, around =>
    if inner.soundIn [] then
      if (c.passing inner around).isEmpty then [] else c.levelRows l around
    else (c.levelRows l around).filter fun r => !(c.passing inner r).isEmpty

def rowsOf (c : Catalogue) (p : Plan) (t : TrackRow) : List Row := c.passing p ⟨t, none, none⟩

def finds (c : Catalogue) (p : Plan) (t : TrackRow) : Bool := !(c.rowsOf p t).isEmpty

def sortKey (c : Catalogue) (p : Plan) (ks : List Key) (t : TrackRow) : List Cell :=
  let rows := c.rowsOf p t
  ks.map fun k => Cell.least (rows.map (·.key k))

def draws (seed : Nat) : Nat → List Nat
  | 0 => []
  | n + 1 =>
    let next := (seed * 6364136223846793005 + 1442695040888963407) % Nat.pow 2 64
    next / Nat.pow 2 33 :: draws next n

def shuffle (seed : Nat) (ts : List TrackRow) : List TrackRow :=
  (((draws seed ts.length).zip ts).mergeSort fun a b => a.1 ≤ b.1).map (·.2)

def arrange (c : Catalogue) (seed : Nat) (p : Plan) (ts : List TrackRow) : List TrackRow :=
  match p.top.order with
  | .random => shuffle seed ts
  | .keys ks =>
    ((ts.map fun t => (c.sortKey p ks t, t)).mergeSort fun a b => Cell.listLe a.1 b.1).map (·.2)

def found (c : Catalogue) (seed : Nat) (p : Plan) : List TrackRow :=
  c.arrange seed p (c.tracks.filter (c.finds p))

end Catalogue

end Jukebox
