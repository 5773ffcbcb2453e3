import Jukebox.Library.Rows

/-!
Comparisons that fail. An operand of `LIKE` may have at most 50000 bytes, and a statement fails if
it compares a value with a longer one. Patterns are tried in turn up to the first that admits the
value, and filters up to the first that does not pass.
-/

set_option autoImplicit false

namespace Jukebox

namespace Like

def maxOperand : Nat := 50000

def tooLong (operand : Text) : Bool := maxOperand < Text.bytes operand

end Like

namespace Pattern

def tooLong (p : Pattern) : Bool := Like.tooLong p.like

def tryFails (v : Cell) : List Pattern → Bool
  | [] => false
  | p :: ps => p.tooLong || (!p.admitsValue v && tryFails v ps)

end Pattern

namespace Row

def filterFails (r : Row) : List Filter → Bool
  | [] => false
  | f :: fs => Pattern.tryFails (r.value f.column) f.patterns || (r.passes f && filterFails r fs)

def keyFails (r : Row) : Key → Bool
  | .column _ => false
  | .rank c ps => Pattern.tryFails (r.value c) ps

end Row

def Level.hasLongPattern (l : Level) : Bool := l.filters.any (·.patterns.any Pattern.tooLong)

def Order.hasLongPattern : Order → Bool
  | .random => false
  | .keys ks => ks.any fun
    | .column _ => false
    | .rank _ ps => ps.any Pattern.tooLong

/-- What is joined to a row, and the filters that are tried on it then. -/
structure Stage where
  join : Option Join
  filters : List Filter

inductive Standing where
  | alone
  | innermost
  | around

namespace Level

def joined (l : Level) (j : Join) : Option Join := if j ∈ l.joins then some j else none

def stage (l : Level) (join : Option Join) (columns : List Column) : Stage :=
  ⟨join, columns.flatMap fun c => l.filters.filter (·.column = c)⟩

/-- How the database goes through a level. Around an inner plan it has the tracks first, elsewhere
it comes to them from an album or an artist. -/
def stages (l : Level) : Standing → List Stage
  | .around =>
    [l.stage none [.title], l.stage (l.joined .albums) [.number, .album],
      l.stage (l.joined .artists) [.artist]]
  | .alone => match l.joined .albums, l.joined .artists with
    | none, none => [l.stage none [.title]]
    | albums, none => [l.stage albums [.number, .album, .title]]
    | none, artists => [l.stage artists [.artist, .title]]
    | albums, artists => [l.stage albums [.number, .album], l.stage artists [.title, .artist]]
  | .innermost => match l.joined .albums, l.joined .artists with
    | none, none => [l.stage none [.title]]
    | albums, none => [l.stage albums [.title, .number, .album]]
    | none, artists => [l.stage artists [.title, .artist]]
    | albums, artists => [l.stage albums [.title, .number, .album], l.stage artists [.artist]]

end Level

namespace Catalogue

def extend (c : Catalogue) (r : Row) : Option Join → List Row
  | none => [r]
  | some .albums => (c.entriesOf r.track).map fun a => { r with album := some a }
  | some .artists => (c.artistsOf r.track).map fun a => { r with artist := some a }

def stagesFail (c : Catalogue) : List Stage → Row → Bool
  | [], _ => false
  | s :: ss, r => (c.extend r s.join).any fun r =>
    r.filterFails s.filters || (s.filters.all r.passes && c.stagesFail ss r)

def levelFails (c : Catalogue) (ts : List TrackRow) (l : Level) (s : Standing) : Bool :=
  ts.any fun t => c.stagesFail (l.stages s) ⟨t, none, none⟩

/-- Whether filtering fails. An inner plan is run first, on all tracks. -/
def filteringFailsIn (c : Catalogue) (s : Standing) : Plan → Bool
  | .only l => c.levelFails c.tracks l s
  | .within l inner => c.filteringFailsIn .innermost inner ||
    c.levelFails (c.tracks.filter (c.finds inner)) l .around

def filteringFails (c : Catalogue) (p : Plan) : Bool := c.filteringFailsIn .alone p

def sortingFails (c : Catalogue) (p : Plan) : Bool :=
  match p.top.order with
  | .random => false
  | .keys ks => c.tracks.any fun t => (c.rowsOf p t).any fun r => ks.any r.keyFails

def comparisonFails (c : Catalogue) (p : Plan) : Bool :=
  (p.top.order.hasLongPattern || p.levels.any Level.hasLongPattern) &&
    (c.filteringFails p || c.sortingFails p)

end Catalogue

end Jukebox
