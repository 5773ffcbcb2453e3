import Jukebox.Text.Basic

/-!
TOML documents. Settings are read from them and written as them by two functions that are not part
of this library; what is relied on of these functions is stated where it is used.
-/

set_option autoImplicit false

namespace Jukebox.Toml

inductive Value where
  | text (t : Text)
  | boolean (b : Bool)
  /-- A number. All that makes a difference to a settings file is whether it is too great. -/
  | number (fits : Bool)
  | moment
  | array (items : List Value)
  | table (entries : List (Text × Value))

namespace Value

def text? : Value → Option Text
  | .text t => some t
  | _ => none

def boolean? : Value → Option Bool
  | .boolean b => some b
  | _ => none

def items? : Value → Option (List Value)
  | .array items => some items
  | _ => none

mutual

/-- Whether no number in the value is too great. -/
def fits : Value → Bool
  | .text _ | .boolean _ | .moment => true
  | .number b => b
  | .array items => fitAll items
  | .table entries => fitEntries entries

def fitAll : List Value → Bool
  | [] => true
  | v :: vs => v.fits && fitAll vs

def fitEntries : List (Text × Value) → Bool
  | [] => true
  | (_, v) :: es => v.fits && fitEntries es

end

end Value

structure Table where
  entries : List (Text × Value)

def Table.get? (t : Table) (key : Text) : Option Value := t.entries.lookup key

structure Codec where
  read? : Text → Option Table
  write? : Table → Option Text

def isBareChar (c : Char) : Bool := c.isAlphanum || c == '_' || c == '-'

def isBareKey (key : Text) : Bool := !key.isEmpty && key.all isBareChar

def isPlain (c : Char) : Bool := c == '\t' || (0x20 ≤ c.val && c.val != 0x7F)

end Jukebox.Toml
