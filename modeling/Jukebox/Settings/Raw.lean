import Jukebox.Toml

set_option autoImplicit false

namespace Jukebox

structure RawLibrary where
  musicHome : Option Text
  database : Option Text
  deriving DecidableEq, Repr

structure RawPlayer where
  command : Option Text
  args : Option (List Text)
  deriving DecidableEq, Repr

structure RawSettings where
  root : Option Bool
  library : Option RawLibrary
  player : Option RawPlayer
  deriving DecidableEq, Repr

namespace RawSettings

open Toml

/-- The values of a section under the given keys; its other values only have to fit. A section may
also be an array, which gives the values in the order of the keys, and whose other values are not
looked at; a date is a section without any. -/
def section? (keys : List String) : Value → Option (List (Option Value))
  | .table es =>
    if Value.fitEntries es then some (keys.map fun k => (⟨es⟩ : Table).get? k.toList) else none
  | .array items => some ((List.range keys.length).map fun i => items[i]?)
  | .moment => some (keys.map fun _ => none)
  | .text _ | .boolean _ | .number _ => none

def optional? {α : Type} (read : Value → Option α) : Option Value → Option (Option α)
  | none => some none
  | some v => (read v).map some

def texts? : Value → Option (List Text)
  | .text t => some [t]
  | .array items => items.mapM Value.text?
  | _ => none

def library? (v : Value) : Option RawLibrary := do
  match ← section? ["music_home", "database"] v with
  | [musicHome, database] =>
    return ⟨← optional? Value.text? musicHome, ← optional? Value.text? database⟩
  | _ => none

def player? (v : Value) : Option RawPlayer := do
  match ← section? ["command", "args"] v with
  | [command, args] => return ⟨← optional? Value.text? command, ← optional? texts? args⟩
  | _ => none

def sections : List Text := ["library".toList, "player".toList]

def ofTable? (t : Table) : Option RawSettings := do
  if !Value.fitEntries (t.entries.filter fun e => !sections.contains e.1) then none
  return ⟨← optional? Value.boolean? (t.get? "root".toList),
    ← optional? library? (t.get? "library".toList),
    ← optional? player? (t.get? "player".toList)⟩

def parse? (toml : Codec) (t : Text) : Option RawSettings := (toml.read? t).bind ofTable?

end RawSettings

end Jukebox
