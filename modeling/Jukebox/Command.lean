import Jukebox.Command.Arguments

set_option autoImplicit false

namespace Jukebox

inductive Subcommand where
  | add
  | complete
  | config
  | init
  | play
  | select
  | status
  deriving DecidableEq, Repr

namespace Subcommand

def name : Subcommand → String
  | .add => "add"
  | .complete => "complete"
  | .config => "config"
  | .init => "init"
  | .play => "play"
  | .select => "select"
  | .status => "status"

def text (s : Subcommand) : Text := s.name.toList

def all : List Subcommand := [.add, .complete, .config, .init, .play, .select, .status]

def ofText? (t : Text) : Option Subcommand := all.find? (·.text = t)

def options : Subcommand → List OptionSpec
  | .add => [⟨"title", .single⟩, ⟨"album", .single⟩, ⟨"artist", .repeated⟩,
      ⟨"track-number", .single⟩]
  | .init => [⟨"global", .flag⟩, ⟨"force", .flag⟩]
  | .select => [⟨"explain", .flag⟩, ⟨"json", .flag⟩]
  | .complete | .config | .play | .status => []

def words : Subcommand → WordCount
  | .add => .one
  | .play | .select => .some
  | .complete => .trailing
  | .config | .init | .status => .none

def takesQuery : Subcommand → Bool
  | .play | .select => true
  | _ => false

end Subcommand

inductive Command where
  | add (path title : Text) (album : Option Text) (artists : List Text) (number : Option Nat)
  | complete (words : List Text)
  | config
  | init (isGlobal force : Bool)
  | play (words : List Text)
  | select (words : List Text) (explain json : Bool)
  | status
  deriving DecidableEq, Repr

structure Invocation where
  musicHome : Option Text
  command : Command
  deriving DecidableEq, Repr

def musicHomeOption : OptionSpec := ⟨"music-home", .single⟩

def trackNumber? (t : Text) : Option Nat :=
  match Text.toInt? t with
  | some n => if 0 ≤ n ∧ n < Nat.pow 2 32 then some n.toNat else none
  | none => none

def Subcommand.command? (a : Arguments) : Subcommand → Option Command
  | .add => match a.words, a.value? "title", a.value? "track-number" with
    | [[]], _, _ => none
    | [path], some title, none =>
      some (.add path title (a.value? "album") (artists a) none)
    | [path], some title, some n => (trackNumber? n).map fun n =>
      .add path title (a.value? "album") (artists a) (some n)
    | _, _, _ => none
  | .complete => some (.complete a.words)
  | .config => some .config
  | .init => some (.init (a.flag "global") (a.flag "force"))
  | .play => some (.play a.words)
  | .select => some (.select a.words (a.flag "explain") (a.flag "json"))
  | .status => some .status
where
  artists (a : Arguments) : List Text := (a.values "artist").flatMap (·.splitOn ',')

def splitAtCommand : List Text → Option (Arguments × Text × List Text)
  | [] => none
  | a :: rest =>
    if a = ['-', '-'] then none
    else if !Arguments.looksLikeOption a then some (⟨[], []⟩, a, rest)
    else if (Arguments.cut a).1 ≠ musicHomeOption.text then none
    else match (Arguments.cut a).2, rest with
      | some value, rest => (splitAtCommand rest).map fun (front, more) =>
        (front.addOption musicHomeOption value, more)
      | none, value :: rest =>
        if Arguments.looksLikeOption value then none
        else (splitAtCommand rest).map fun (front, more) =>
          (front.addOption musicHomeOption value, more)
      | none, [] => none

/-- Reads a command line. The music home may be given in front of the command or after it, which
counts more, and the environment is asked last. -/
def Invocation.read? (environment : Option Text) (args : List Text) : Option Invocation := do
  let (front, word, rest) ← splitAtCommand args
  if !front.fits [musicHomeOption] .trailing then none
  let sub ← Subcommand.ofText? word
  let a ← Arguments.read? (musicHomeOption :: sub.options) sub.words rest
  let command ← sub.command? a
  let home := ((a.value? "music-home").or (front.value? "music-home")).or environment
  return ⟨home, command⟩

end Jukebox
