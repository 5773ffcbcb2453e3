import Jukebox.Library.Catalogue

set_option autoImplicit false

namespace Jukebox

structure Database where
  version : Option Int
  catalogue : Catalogue
  deriving DecidableEq, Repr

namespace Database

def currentVersion : Int := 1

def blank : Database := ⟨none, .empty⟩

/-- Makes a database ready for use: a missing version is set, and another version is refused. -/
def prepare (d : Database) : Except Int Database :=
  match d.version with
  | none => .ok { d with version := some currentVersion }
  | some v => if v = currentVersion then .ok d else .error v

end Database

end Jukebox
