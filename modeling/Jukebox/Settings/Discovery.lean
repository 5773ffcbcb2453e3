import Jukebox.Files
import Jukebox.Settings

/-!
Which settings files govern a directory: those on the way from it up to the root, the nearest
first, and that of the home directory last. A file that calls itself a root ends the search.
-/

set_option autoImplicit false

namespace Jukebox

def settingsName : Text := ".cantrip.toml".toList

def settingsIn (directory : Text) : Text := Path.join directory settingsName

def isGlobalSettings (home path : Text) : Bool := Path.same path (settingsIn home)

inductive ConfigError where
  | unreadable (path : Text) (cause : FileError)
  | malformed (path : Text)
  | unwritten
  deriving DecidableEq, Repr

namespace ConfigError

def headline : ConfigError → Text
  | .unreadable path _ => "failed to read config file ".toList ++ path ++ ": ".toList
  | .malformed path => "failed to parse config file ".toList ++ path ++ ": ".toList
  | .unwritten => "failed to serialize settings: ".toList

def message (e : ConfigError) : Text :=
  e.headline ++ match e with
    | .unreadable _ cause => cause.message
    | .malformed _ => "TOML parse error".toList
    | .unwritten => "TOML write error".toList

end ConfigError

def Settings.render (toml : Toml.Codec) (s : Settings) : Except ConfigError Text :=
  match toml.write? s.table with
  | some t => .ok t
  | none => .error .unwritten

namespace Files

variable (toml : Toml.Codec) (fs : Files)

/-- Whether a file asks to leave out those further up. A file that cannot be read does not. -/
def isRootSettings (path : Text) : Bool :=
  match fs.read path with
  | .ok t => (RawSettings.parse? toml t).any (·.root == some true)
  | .error _ => false

/-- The settings files in a list of directories up to a root, and whether a root was met. -/
def governing : List Text → List Text × Bool
  | [] => ([], false)
  | d :: ds =>
    let path := settingsIn d
    if !fs.isFile path then governing ds
    else if fs.isRootSettings toml path then ([path], true)
    else
      let (paths, rooted) := governing ds
      (path :: paths, rooted)

def discover (home cwd : Text) : List Text :=
  let (paths, rooted) := fs.governing toml (cwd :: Path.parents cwd)
  let global := settingsIn home
  if !rooted && fs.isFile global && !paths.any (Path.same global) then paths ++ [global] else paths

def readSettings (path : Text) : Except ConfigError SettingsFile :=
  match fs.read path with
  | .error cause => .error (.unreadable path cause)
  | .ok t => match RawSettings.parse? toml t with
    | some raw => .ok ⟨path, raw⟩
    | none => .error (.malformed path)

def loadFiles (home : Text) (paths : List Text) : Except ConfigError Config :=
  (paths.mapM (fs.readSettings toml)).map (Config.merge home)

def load (home cwd : Text) : Except ConfigError Config :=
  fs.loadFiles toml home (fs.discover toml home cwd)

end Files

end Jukebox
