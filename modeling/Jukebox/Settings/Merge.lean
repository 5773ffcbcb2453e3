import Jukebox.Settings

set_option autoImplicit false

namespace Jukebox

namespace Path

def expandHome? (home? : Option Text) : Text → Option Text
  | ['~'] => home?
  | '~' :: '/' :: rest => home?.map fun home => join home rest
  | p => some p

def resolve? (home? : Option Text) (base p : Text) : Option Text :=
  (expandHome? home? p).map fun expanded =>
    if isAbsolute expanded then expanded else join base expanded

end Path

/-- Without a home directory the default music home is relative. -/
def Settings.defaultOf (home? : Option Text) : Settings := .default (home?.getD [])

namespace SettingsFile

def overlay? (home? : Option Text) (f : SettingsFile) (s : Settings) : Option Settings := do
  let musicHome ← match f.raw.library.bind RawLibrary.musicHome with
    | some p => Path.resolve? home? f.directory p
    | none => some s.musicHome
  return {
    musicHome
    database := (f.raw.library.bind RawLibrary.database).getD s.database
    command := (f.raw.player.bind RawPlayer.command).getD s.command
    args := (f.raw.player.bind RawPlayer.args).getD s.args }

end SettingsFile

def Config.merge? (home? : Option Text) (files : List SettingsFile) : Option Config :=
  (files.foldrM (SettingsFile.overlay? home?) (.defaultOf home?)).map fun s =>
    ⟨s, files.head?.map SettingsFile.directory, files.map SettingsFile.path⟩

end Jukebox
