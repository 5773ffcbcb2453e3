import Jukebox.Plan

set_option autoImplicit false

namespace Jukebox

structure Statement where
  sql : Text
  params : List Text
  deriving DecidableEq, Repr

def Column.sql : Column → String
  | .title => "tracks.title"
  | .album => "albums.title"
  | .number => "album_contents.track_number"
  | .artist => "artists.name"

def Join.sql : Join → String
  | .albums =>
    " JOIN album_contents ON album_contents.track_id = tracks.id" ++
      " JOIN albums ON albums.id = album_contents.album_id"
  | .artists =>
    " JOIN track_artists ON track_artists.track_id = tracks.id" ++
      " JOIN artists ON artists.id = track_artists.artist_id"

def Column.likeSql (c : Column) : Text := (c.sql ++ " LIKE ? ESCAPE '\\'").toList

def Filter.sql (f : Filter) : Text :=
  ['('] ++ Text.join " OR " (f.patterns.map fun _ => f.column.likeSql) ++ [')']

def Filter.params (f : Filter) : List Text := f.patterns.map Pattern.like

namespace Key

def armsSql (c : Column) : Nat → List Pattern → Text
  | _, [] => []
  | n, _ :: ps =>
    " WHEN ".toList ++ c.likeSql ++ " THEN ".toList ++ Text.ofNat n ++ armsSql c (n + 1) ps

def sql : Key → Text
  | .column c => c.sql.toList
  | .rank c ps =>
    "CASE".toList ++ armsSql c 0 ps ++ " ELSE ".toList ++ Text.ofNat ps.length ++ " END".toList

def params : Key → List Text
  | .column _ => []
  | .rank _ ps => ps.map Pattern.like

end Key

namespace Order

/-- Where rows are grouped by track, a key takes its least value over the rows of a track. -/
def sql (grouped : Bool) : Order → Text
  | .random => " ORDER BY random()".toList
  | .keys [] => []
  | .keys ks =>
    " ORDER BY ".toList ++ Text.join ", " (ks.map fun k =>
      if grouped then "MIN(".toList ++ k.sql ++ [')'] else k.sql)

def params : Order → List Text
  | .random => []
  | .keys ks => ks.flatMap Key.params

end Order

def whereSql : List Text → Text
  | [] => []
  | conditions => " WHERE ".toList ++ Text.join " AND " conditions

namespace Plan

def selectSql (output : String) : Plan → Text
  | .only l => body l []
  | .within l inner => body l ["tracks.id IN (".toList ++ inner.selectSql "tracks.id" ++ [')']]
where
  body (l : Level) (more : List Text) : Text :=
    ("SELECT " ++ output ++ " FROM tracks").toList ++ l.joins.flatMap (·.sql.toList) ++
      whereSql (l.filters.map Filter.sql ++ more)

def selectParams (p : Plan) : List Text := p.levels.flatMap (·.filters.flatMap Filter.params)

/-- Joins give a row for each album and artist of a track, so rows are grouped by track. -/
def sql (p : Plan) : Text :=
  let grouped := !p.top.joins.isEmpty
  p.selectSql "tracks.path" ++ (if grouped then " GROUP BY tracks.id".toList else []) ++
    p.top.order.sql grouped

def statement (p : Plan) : Statement := ⟨p.sql, p.selectParams ++ p.top.order.params⟩

end Plan

end Jukebox
