import Jukebox.Path

set_option autoImplicit false

namespace Jukebox.Path

def expandHome (home : Text) : Text → Text
  | ['~'] => home
  | '~' :: '/' :: rest => join home rest
  | p => p

def resolve (home base p : Text) : Text :=
  let expanded := expandHome home p
  if isAbsolute expanded then expanded else join base expanded

end Jukebox.Path
