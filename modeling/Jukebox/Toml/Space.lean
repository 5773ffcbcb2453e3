import Jukebox.Toml

set_option autoImplicit false

namespace Jukebox.Toml

def isSpace (c : Char) : Bool := c == ' ' || c == '\t'

def skipSpace (t : Text) : Text := t.dropWhile isSpace

def newline? : Text → Option Text
  | '\n' :: t => some t
  | '\r' :: '\n' :: t => some t
  | _ => none

/-- Leaves out spaces, line breaks and comments, up to something else. -/
def skipGap : Text → Text
  | [] => []
  | c :: t =>
    if isSpace c || c == '\n' then skipGap t
    else if c == '\r' && t.head? == some '\n' then skipGap t
    else if c == '#' then skipComment t
    else c :: t
where
  skipComment : Text → Text
    | [] => []
    | c :: t =>
      if c == '\n' then skipGap t
      else if isPlain c || (c == '\r' && t.head? == some '\n') then skipComment t
      else c :: t

def lineEnd? (t : Text) : Option Text :=
  let t := skipSpace t
  let t := if t.head? == some '#' then t.dropWhile isPlain else t
  if t.isEmpty then some [] else newline? t

end Jukebox.Toml
