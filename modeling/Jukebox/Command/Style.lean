import Jukebox.Text.Basic

set_option autoImplicit false

namespace Jukebox.Style

def styled (codes : String) (t : Text) : Text := codes.toList ++ t ++ "\x1b[0m".toList

def bold (t : Text) : Text := styled "\x1b[1m" t

def header (t : Text) : Text := styled "\x1b[1m\x1b[36m" t

def dim (t : Text) : Text := styled "\x1b[2m" t

def warning (t : Text) : Text := styled "\x1b[33m" t

def margin : Text := "   ".toList

def indent (t : Text) : Text := Text.join "\n" ((Text.lines t).map (margin ++ ·))

end Jukebox.Style
