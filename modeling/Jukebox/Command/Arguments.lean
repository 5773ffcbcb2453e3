import Jukebox.Text.Basic

set_option autoImplicit false

namespace Jukebox

inductive OptionKind where
  | flag
  | single
  | repeated
  deriving DecidableEq, Repr

structure OptionSpec where
  name : String
  kind : OptionKind
  deriving DecidableEq, Repr

def OptionSpec.text (o : OptionSpec) : Text := ("--" ++ o.name).toList

inductive WordCount where
  | none
  | one
  | some
  /-- Any number. From the first word on nothing is an option. -/
  | trailing
  deriving DecidableEq, Repr

structure Arguments where
  options : List (OptionSpec × Text)
  words : List Text
  deriving DecidableEq, Repr

namespace Arguments

def addWords (words : List Text) (a : Arguments) : Arguments := { a with words := words ++ a.words }

def addOption (o : OptionSpec) (value : Text) (a : Arguments) : Arguments :=
  { a with options := (o, value) :: a.options }

def looksLikeOption : Text → Bool
  | '-' :: _ :: _ => true
  | _ => false

def cut (t : Text) : Text × Option Text :=
  match t.dropWhile (· ≠ '=') with
  | [] => (t, Option.none)
  | _ :: value => (t.takeWhile (· ≠ '='), Option.some value)

def isOption (specs : List OptionSpec) (count : WordCount) (a : Text) : Bool :=
  looksLikeOption a && (count != .trailing || specs.any (·.text = (cut a).1))

/-- Sorts arguments by the options that there are. Unknown options, missing values and values of
flags are refused; after two dashes nothing is an option. -/
def sort (specs : List OptionSpec) (count : WordCount) : List Text → Option Arguments
  | [] => Option.some ⟨[], []⟩
  | a :: rest =>
    if a = ['-', '-'] then Option.some ⟨[], rest⟩
    else if !isOption specs count a then
      if count = .trailing then Option.some ⟨[], a :: rest⟩
      else (sort specs count rest).map (addWords [a])
    else match specs.find? (·.text = (cut a).1) with
      | Option.none => Option.none
      | Option.some o => match o.kind, (cut a).2, rest with
        | .flag, Option.none, rest => (sort specs count rest).map (addOption o [])
        | .flag, Option.some _, _ => Option.none
        | _, Option.some value, rest => (sort specs count rest).map (addOption o value)
        | _, Option.none, value :: rest =>
          if value = ['-', '-'] || isOption specs count value then Option.none
          else (sort specs count rest).map (addOption o value)
        | _, Option.none, [] => Option.none

def values (a : Arguments) (name : String) : List Text :=
  (a.options.filter (·.1.name = name)).map Prod.snd

def value? (a : Arguments) (name : String) : Option Text := (a.values name).head?

def flag (a : Arguments) (name : String) : Bool := !(a.values name).isEmpty

def fits (specs : List OptionSpec) (count : WordCount) (a : Arguments) : Bool :=
  specs.all (fun o => o.kind = .repeated || (a.values o.name).length ≤ 1) &&
    match count with
    | .none => a.words.isEmpty
    | .one => a.words.length == 1
    | .some => !a.words.isEmpty
    | .trailing => true

def read? (specs : List OptionSpec) (count : WordCount) (args : List Text) : Option Arguments :=
  (sort specs count args).filter (fits specs count)

end Arguments

end Jukebox
