import Jukebox.Path.Home
import Jukebox.Settings.Raw

set_option autoImplicit false

namespace Jukebox

structure Settings where
  musicHome : Text
  database : Text
  /-- The program that plays tracks, and what it is given in front of them. -/
  command : Text
  args : List Text
  deriving DecidableEq, Repr

namespace Settings

def default (home : Text) : Settings where
  musicHome := Path.join home ".cantrip".toList
  database := ".metadata.db".toList
  command := "mpv".toList
  args := ["--no-video".toList]

def databasePath (s : Settings) : Text := Path.join s.musicHome s.database

def table (s : Settings) : Toml.Table :=
  ⟨[("library".toList, .table
      [("music_home".toList, .text s.musicHome), ("database".toList, .text s.database)]),
    ("player".toList, .table
      [("command".toList, .text s.command), ("args".toList, .array (s.args.map .text))])]⟩

end Settings

structure SettingsFile where
  path : Text
  raw : RawSettings
  deriving DecidableEq, Repr

namespace SettingsFile

def directory (f : SettingsFile) : Text := (Path.parent? f.path).getD ['.']

def overlay (home : Text) (f : SettingsFile) (s : Settings) : Settings where
  musicHome := match f.raw.library.bind RawLibrary.musicHome with
    | some p => Path.resolve home f.directory p
    | none => s.musicHome
  database := (f.raw.library.bind RawLibrary.database).getD s.database
  command := (f.raw.player.bind RawPlayer.command).getD s.command
  args := (f.raw.player.bind RawPlayer.args).getD s.args

end SettingsFile

structure Config where
  settings : Settings
  root : Option Text
  files : List Text
  deriving DecidableEq, Repr

namespace Config

def default (home : Text) : Config := ⟨.default home, none, []⟩

def merge (home : Text) (files : List SettingsFile) : Config where
  settings := files.foldr (SettingsFile.overlay home) (.default home)
  root := files.head?.map SettingsFile.directory
  files := files.map SettingsFile.path

def withMusicHome (c : Config) (home cwd p : Text) : Config :=
  { c with settings := { c.settings with musicHome := Path.resolve home cwd p } }

end Config

end Jukebox
