import Jukebox.Plan

set_option autoImplicit false

namespace Jukebox

def Column.join? : Column → Option Join
  | .title => none
  | .album | .number => some .albums
  | .artist => some .artists

def Column.isIn (c : Column) (joined : List Join) : Bool :=
  match c.join? with
  | some j => j ∈ joined
  | none => true

def Key.sound (joined : List Join) : Key → Bool
  | .column c => c.isIn joined
  | .rank c ps => c.isIn joined && !ps.isEmpty

def Order.sound (joined : List Join) : Order → Bool
  | .random => true
  | .keys ks => ks.all (Key.sound joined)

def Filter.sound (joined : List Join) (f : Filter) : Bool :=
  f.column.isIn joined && !f.patterns.isEmpty

/-- Whether a level joins no table twice and has its columns, given what is joined around it. -/
def Level.sound (l : Level) (around : List Join) : Bool :=
  decide l.joins.Nodup && l.filters.all (Filter.sound (l.joins ++ around))

namespace Plan

def soundIn : List Join → Plan → Bool
  | around, .only l => l.sound around
  | around, .within l inner => l.sound around && inner.soundIn (l.joins ++ around)

def sound (p : Plan) : Bool := p.top.order.sound p.top.joins && p.soundIn []

end Plan

end Jukebox
