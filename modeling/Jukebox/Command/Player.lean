import Jukebox.Files

set_option autoImplicit false

namespace Jukebox

structure ProgramRun where
  output : Text
  status : Nat
  deriving DecidableEq, Repr

abbrev Programs := Text → List Text → Option ProgramRun

namespace Programs

def isEchoOption : Text → Bool
  | '-' :: c :: cs => (c :: cs).all fun d => d == 'n' || d == 'e' || d == 'E'
  | _ => false

def echo (args : List Text) : Text :=
  let unbroken := (args.takeWhile isEchoOption).any (·.contains 'n')
  Text.join " " (args.dropWhile isEchoOption) ++ if unbroken then [] else ['\n']

def bareName (name : Text) : Text :=
  (["/usr/bin/", "/bin/"].findSome? fun d => Text.after? d.toList name).getD name

/-- A program that prints its arguments, and two that do nothing but succeed or fail. -/
def standard : Programs := fun name args =>
  if bareName name = "echo".toList then some ⟨echo args, 0⟩
  else if bareName name = "true".toList then some ⟨[], 0⟩
  else if bareName name = "false".toList then some ⟨[], 1⟩
  else none

end Programs

def Files.launch (fs : Files) (programs : Programs) (cwd name : Text) (args : List Text) :
    Except FileError ProgramRun :=
  if (name :: args).any (·.contains '\x00') then .error .nullArgument
  else match programs name args with
    | some r => .ok r
    | none =>
      if name.contains '/' then (fs.locate (Path.join cwd name)).bind fun _ => .error .notPermitted
      else .error .notFound

end Jukebox
