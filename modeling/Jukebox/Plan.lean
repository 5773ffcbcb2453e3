import Jukebox.Pattern

/-!
A plan says how tracks are looked up: which tables are joined to them, what a row must match, in
which order the tracks come, and which other plan must find them too.
-/

set_option autoImplicit false

namespace Jukebox

inductive Column where
  | title
  | album
  | number
  | artist
  deriving DecidableEq, Repr

def Column.text : Column → Text
  | .title => "track title".toList
  | .album => "album title".toList
  | .number => "track number".toList
  | .artist => "artist name".toList

inductive Join where
  | albums
  | artists
  deriving DecidableEq, Repr

def Join.text : Join → Text
  | .albums => "albums".toList
  | .artists => "artists".toList

structure Filter where
  column : Column
  patterns : List Pattern
  deriving DecidableEq, Repr

inductive Key where
  /-- The place of the first pattern that the column matches. -/
  | rank (column : Column) (patterns : List Pattern)
  | column (column : Column)
  deriving DecidableEq, Repr

inductive Order where
  | random
  | keys (keys : List Key)
  deriving DecidableEq, Repr

/-- Whether the order leaves open which of two tracks comes first, whatever their values. -/
def Order.isFree : Order → Bool
  | .random | .keys [] => true
  | .keys _ => false

structure Level where
  joins : List Join
  filters : List Filter
  order : Order
  deriving DecidableEq, Repr

def Level.unordered (l : Level) : Level := { l with order := .keys [] }

inductive Plan where
  | only (l : Level)
  /-- The tracks of the level that the inner plan finds too. -/
  | within (l : Level) (inner : Plan)
  deriving DecidableEq, Repr

namespace Plan

def top : Plan → Level
  | .only l | .within l _ => l

def inner? : Plan → Option Plan
  | .only _ => none
  | .within _ inner => some inner

def levels : Plan → List Level
  | .only l => [l]
  | .within l inner => l :: inner.levels

def ofLevels (l : Level) : List Level → Plan
  | [] => .only l
  | m :: ms => .within l (ofLevels m ms)

theorem levels_ofLevels (l : Level) (ls : List Level) : (ofLevels l ls).levels = l :: ls := by
  induction ls generalizing l with
  | nil => rfl
  | cons m ms ih => exact congrArg (l :: ·) (ih m)

def unordered : Plan → Plan
  | .only l => .only l.unordered
  | .within l inner => .within l.unordered inner

def joins (p : Plan) (j : Join) : Bool := j ∈ p.top.joins

def filter? (p : Plan) (c : Column) : Option (List Pattern) :=
  (p.top.filters.find? (·.column = c)).map Filter.patterns

end Plan

def patternList (ps : List Pattern) : Text := ['['] ++ Text.join ", " (ps.map Pattern.text) ++ [']']

def Filter.text (f : Filter) : Text := f.column.text ++ " ~ ".toList ++ patternList f.patterns

def Key.text : Key → Text
  | .rank c ps => "rank(".toList ++ c.text ++ " ~ ".toList ++ patternList ps ++ [')']
  | .column c => c.text

def Order.lines : Order → List Text
  | .random => ["  order randomly".toList]
  | .keys [] => []
  | .keys ks => ["  order by ".toList ++ Text.join ", " (ks.map Key.text)]

namespace Plan

def treeLines : Plan → List Text
  | .only l => lines l []
  | .within l inner =>
    lines l ("  intersect".toList :: inner.treeLines.map ("    ".toList ++ ·))
where
  lines (l : Level) (inner : List Text) : List Text :=
    ["tracks".toList] ++ l.joins.map ("  join ".toList ++ ·.text) ++
      l.filters.map ("  where ".toList ++ ·.text) ++ inner ++ l.order.lines

def tree (p : Plan) : Text := p.treeLines.flatMap (· ++ ['\n'])

end Plan

end Jukebox
