import Jukebox.Files
import Jukebox.Settings
import Jukebox.Text.Blank

set_option autoImplicit false

namespace Jukebox

inductive Warning where
  | homeMissing (path : Text)
  | homeNotDirectory (path : Text)
  | noPlayer
  deriving DecidableEq, Repr

namespace Warning

def message : Warning → Text
  | .homeMissing path => "music home does not exist: ".toList ++ path
  | .homeNotDirectory path => "music home is not a directory: ".toList ++ path
  | .noPlayer => "player command is empty".toList

def hint? : Warning → Option Text
  | .homeMissing _ => some "Hint: create the directory or set [library] music_home".toList
  | .homeNotDirectory _ => none
  | .noPlayer => some "Hint: set [player] command in .cantrip.toml".toList

end Warning

def Settings.warnings (s : Settings) (fs : Files) : List Warning :=
  let home :=
    if !fs.exists? s.musicHome then [.homeMissing s.musicHome]
    else if !fs.isDirectory s.musicHome then [.homeNotDirectory s.musicHome]
    else []
  home ++ if (Text.trim s.command).isEmpty then [.noPlayer] else []

end Jukebox
