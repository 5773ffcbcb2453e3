import Jukebox.Toml.Reader

set_option autoImplicit false

namespace Jukebox.Toml

def isControl (c : Char) : Bool := (c.val < 0x20 && c != '\t' && c != '\n') || c.val == 0x7F

def hasRun (n : Nat) (c : Char) (t : Text) : Bool := go n t
where
  go : Nat → Text → Bool
    | 0, _ => true
    | _ + 1, [] => false
    | k + 1, d :: t => if d = c then go k t else go n t

inductive Form where
  | basic
  | literal
  | basicLines
  | literalLines
  deriving DecidableEq, Repr

def form (t : Text) : Form :=
  let control := t.any isControl
  let backslash := t.contains '\\'
  let lineBreak := t.contains '\n'
  if !control && !backslash && !t.contains '"' && !lineBreak then .basic
  else if !control && !t.contains '\'' && !lineBreak then .literal
  else if !control && !backslash && !hasRun 3 '"' t then .basicLines
  else if !control && !hasRun 3 '\'' t then .literalLines
  else if lineBreak then .basicLines
  else .basic

def hexByte (n : Nat) : Text :=
  let digit (d : Nat) : Char :=
    if d < 10 then Char.ofNat ('0'.toNat + d) else Char.ofNat ('A'.toNat + (d - 10))
  [digit (n / 16), digit (n % 16)]

def escapeChar (c : Char) : Text :=
  if c = '\x08' then ['\\', 'b']
  else if c = '\t' then ['\\', 't']
  else if c = '\x0c' then ['\\', 'f']
  else if c = '\r' then ['\\', 'r']
  else if c = '\\' then ['\\', '\\']
  else if isControl c then "\\u00".toList ++ hexByte c.toNat
  else [c]

def escapeLine : Text → Text
  | [] => []
  | c :: t =>
    (if c = '"' then ['\\', '"'] else if c = '\n' then ['\\', 'n'] else escapeChar c) ++
      escapeLine t

/-- The text between three double quotes; of quotes in a row each third is escaped, after `n` that
were not. -/
def escapeLines (n : Nat) : Text → Text
  | [] => []
  | c :: t =>
    if c = '"' then
      if n = 2 then ['\\', '"'] ++ escapeLines 0 t else '"' :: escapeLines (n + 1) t
    else (if c = '\n' then ['\n'] else escapeChar c) ++ escapeLines 0 t

/-- A form on several lines starts with a line break that is not part of the text, if the text has
one. -/
def firstBreak (t : Text) : Text := if t.contains '\n' then ['\n'] else []

def writeText (t : Text) : Text :=
  match form t with
  | .basic => ['"'] ++ escapeLine t ++ ['"']
  | .literal => ['\''] ++ t ++ ['\'']
  | .basicLines => "\"\"\"".toList ++ firstBreak t ++ escapeLines 0 t ++ "\"\"\"".toList
  | .literalLines => "'''".toList ++ firstBreak t ++ t ++ "'''".toList

def writeList : List Text → Text
  | [] => "[]".toList
  | [t] => ['['] ++ writeText t ++ [']']
  | ts =>
    "[\n".toList ++ ts.flatMap (fun t => "    ".toList ++ writeText t ++ ",\n".toList) ++ [']']

def writeValue? : Value → Option Text
  | .text t => some (writeText t)
  | .array items => (items.mapM Value.text?).map writeList
  | _ => none

def writeSetting? : Text × Value → Option Text
  | (key, v) =>
    if isBareKey key then (writeValue? v).map fun w => key ++ " = ".toList ++ w ++ ['\n'] else none

def writeSection? : Text × Value → Option Text
  | (key, .table entries) =>
    if isBareKey key then
      (entries.mapM writeSetting?).map fun lines => ['['] ++ key ++ "]\n".toList ++ lines.flatten
    else none
  | _ => none

def write? (t : Table) : Option Text := (t.entries.mapM writeSection?).map (Text.join "\n")

def codec : Codec := ⟨read?, write?⟩

end Jukebox.Toml
