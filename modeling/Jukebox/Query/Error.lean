import Jukebox.Lexeme

set_option autoImplicit false

namespace Jukebox

structure ParseError where
  lexeme : Option Lexeme
  /-- Without repeats and by rank. -/
  expected : List Kind
  source : Option Text
  deriving DecidableEq, Repr

namespace ParseError

def kindSet (kinds : List Kind) : List Kind := Kind.all.filter (· ∈ kinds)

def unexpected (l : Lexeme) (expected : List Kind) : ParseError := ⟨some l, kindSet expected, none⟩

def endOfText (expected : List Kind) : ParseError := ⟨none, kindSet expected, none⟩

def message (e : ParseError) : Text :=
  let failure := match e.lexeme with
    | some l => l.describe
    | none => "unexpected end of lexeme stream".toList
  match e.expected with
  | [] => failure
  | [only] => failure ++ ", expected ".toList ++ only.text
  | kinds => failure ++ ", expected one of \x7b".toList ++ Text.join ", " (kinds.map Kind.text) ++
      ['\x7d']

def column? (e : ParseError) : Option Nat :=
  match e.lexeme with
  | some l => some l.column
  | none => e.source.map Text.bytes

/-- How far a caret under the text is indented: by the characters in front of the column, or by
the column itself where it lies inside a character. -/
def indent (source : Text) (column : Nat) : Nat :=
  match Text.before? (min column source.bytes) source with
  | some front => front.length
  | none => column

def display (e : ParseError) : Text :=
  let place := match e.column? with
    | some n => " at column ".toList ++ Text.ofNat n
    | none => []
  let quote := match e.source with
    | some source => "\n  ".toList ++ source ++ match e.column? with
      | some n => "\n  ".toList ++ List.replicate (indent source n) ' ' ++ ['^']
      | none => []
    | none => []
  "query syntax error".toList ++ place ++ ": ".toList ++ e.message ++ quote

end ParseError

end Jukebox
