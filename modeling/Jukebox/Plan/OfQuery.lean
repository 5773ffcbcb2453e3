import Jukebox.Plan
import Jukebox.Query.Parser

/-!
The plans of a query. Each selection gives one plan; a query after `and` narrows it, and the plans
of a query after `or` follow it.
-/

set_option autoImplicit false

namespace Jukebox

/-- The patterns of a list of names that narrows a selection: a list with the name that every
value matches does not. -/
def narrowing? : Option (List Text) → Option (List Pattern)
  | none => none
  | some names => if names.contains matchAll then none else some (names.map Pattern.ofText)

/-- A join, the filter on its column, and the keys by which the joined rows come first. -/
structure Narrowing where
  join : Join
  filter : Filter
  keys : List Key
  deriving DecidableEq, Repr

namespace Selection

def byAlbum? (s : Selection) : Option Narrowing :=
  (narrowing? s.albums).map fun ps =>
    ⟨.albums, ⟨.album, ps⟩,
      [.rank .album ps, .column .album] ++ if s.ordered then [.column .number] else []⟩

def byArtist? (s : Selection) : Option Narrowing :=
  (narrowing? s.artists).map fun ps =>
    ⟨.artists, ⟨.artist, ps⟩, [.rank .artist ps, .column .artist]⟩

def narrowings (s : Selection) : List Narrowing := s.byAlbum?.toList ++ s.byArtist?.toList

def titleFilters (s : Selection) : List Filter :=
  match s.titles.filter (· ≠ matchAll) with
  | [] => []
  | names => [⟨.title, names.map Pattern.ofText⟩]

def titleKeys (s : Selection) : List Key :=
  [.rank .title (s.titles.map Pattern.ofText), .column .title]

def level (s : Selection) : Level where
  joins := s.narrowings.map Narrowing.join
  filters := s.narrowings.map Narrowing.filter ++ s.titleFilters
  order := if s.shuffle then .random else .keys (s.narrowings.flatMap Narrowing.keys ++ s.titleKeys)

end Selection

namespace Query

/-- The plan of the first selection and of those that narrow it. Below an `and` the order of the
tracks does not matter, and an `or` adds nothing. -/
def firstPlan : Query → Plan
  | .last s => .only s.level
  | .link s .and rest => .within s.level rest.firstPlan.unordered
  | .link s .or _ => .only s.level

/-- The plans whose tracks, one after the other, are those of the query. -/
def plans : Query → List Plan
  | .last s => [firstPlan (.last s)]
  | .link s .and rest => [firstPlan (.link s .and rest)]
  | .link s .or rest => firstPlan (.link s .or rest) :: rest.plans

def compile (t : Text) : Except ParseError (List Plan) := (parse t).map plans

end Query

end Jukebox
