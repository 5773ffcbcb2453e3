import Jukebox.Text.Basic

set_option autoImplicit false

namespace Jukebox.Template

def localLines : List String := [
  "# cantrip configuration for this directory tree.",
  "#",
  "# Settings here take precedence over ~/.cantrip.toml and any .cantrip.toml",
  "# further up the tree. Set \x60root = true\x60 to ignore those entirely.",
  "",
  "root = false",
  "",
  "[library]",
  "# Directory holding your music. Track paths are stored relative to it.",
  "# Relative paths are resolved against the directory of this file.",
  "music_home = \"music\"",
  "",
  "# Library database, relative to music_home.",
  "database = \".metadata.db\"",
  "",
  "[player]",
  "# Program that receives the selected track paths as arguments.",
  "command = \"mpv\"",
  "args = [\"--no-video\"]"]

def globalLines : List String := [
  "# Global cantrip configuration.",
  "#",
  "# Applies everywhere unless a closer .cantrip.toml overrides a setting.",
  "",
  "[library]",
  "# Directory holding your music. Track paths are stored relative to it.",
  "music_home = \"~/.cantrip\"",
  "",
  "# Library database, relative to music_home.",
  "database = \".metadata.db\"",
  "",
  "[player]",
  "# Program that receives the selected track paths as arguments.",
  "# \x60args\x60 may be a single string or a list.",
  "command = \"mpv\"",
  "args = \"--no-video\""]

def commentOut : Text → Text
  | [] => []
  | '#' :: t => '#' :: t
  | t => '#' :: ' ' :: t

def text (isGlobal : Bool) : Text :=
  (if isGlobal then globalLines else localLines).flatMap fun l => commentOut l.toList ++ ['\n']

end Jukebox.Template
