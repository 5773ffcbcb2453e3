import Jukebox.Library.Database
import Jukebox.Path

/-!
A tree of files and directories. A file is found by the names on the way to it from the root; a
path is followed piece by piece, so that two points go back up from a directory that must be
there.
-/

set_option autoImplicit false

namespace Jukebox

inductive Content where
  | text (t : Text)
  | bytes (raw : List UInt8)
  | database (d : Database)
  deriving DecidableEq, Repr

inductive Entry where
  | directory
  | file (c : Content)
  deriving DecidableEq, Repr

inductive FileError where
  | notFound
  | exists
  | notADirectory
  | isADirectory
  | notText
  | nameTooLong
  | nullCharacter
  | nullArgument
  | notPermitted
  deriving DecidableEq, Repr

def FileError.message : FileError → Text
  | .notFound => "No such file or directory (os error 2)".toList
  | .exists => "File exists (os error 17)".toList
  | .notADirectory => "Not a directory (os error 20)".toList
  | .isADirectory => "Is a directory (os error 21)".toList
  | .notText => "stream did not contain valid UTF-8".toList
  | .nameTooLong => "File name too long (os error 36)".toList
  | .nullCharacter => "file name contained an unexpected NUL byte".toList
  | .nullArgument => "nul byte found in provided data".toList
  | .notPermitted => "Permission denied (os error 13)".toList

structure Files where
  entries : List (List Text × Entry)
  deriving DecidableEq, Repr

namespace Files

def empty : Files := ⟨[]⟩

def entry? (fs : Files) : List Text → Option Entry
  | [] => some .directory
  | key => fs.entries.lookup key

def set (fs : Files) (key : List Text) (e : Entry) : Files :=
  ⟨fs.entries.filter (·.1 ≠ key) ++ [(key, e)]⟩

def hasDirectory (fs : Files) (key : List Text) : Bool := fs.entry? key == some .directory

def nameFits (name : Text) : Bool := Text.bytes name ≤ 255

def checkPath (path : Text) : Except FileError Unit :=
  if path.contains '\x00' then .error .nullCharacter
  else if 4096 ≤ Text.bytes path then .error .nameTooLong
  else .ok ()

def follow (fs : Files) (key : List Text) : List Text → Except FileError (List Text)
  | [] => .ok key
  | p :: ps =>
    if !fs.hasDirectory key then .error .notADirectory
    else if Path.idle p then follow fs key ps
    else if p = ['.', '.'] then follow fs key.dropLast ps
    else if !nameFits p then .error .nameTooLong
    else match fs.entry? (key ++ [p]) with
      | some _ => follow fs (key ++ [p]) ps
      | none => .error .notFound

/-- The names under which a path is found. A relative path is found nowhere. -/
def locate (fs : Files) (path : Text) : Except FileError (List Text) := do
  checkPath path
  let s := Path.shape path
  if s.lead = .root then fs.follow [] s.pieces else .error .notFound

def at? (fs : Files) (path : Text) : Option Entry :=
  match fs.locate path with
  | .ok key => fs.entry? key
  | .error _ => none

def exists? (fs : Files) (path : Text) : Bool := (fs.at? path).isSome

def isFile (fs : Files) (path : Text) : Bool :=
  match fs.at? path with
  | some (.file _) => true
  | _ => false

def isDirectory (fs : Files) (path : Text) : Bool := fs.at? path == some .directory

def realPath (fs : Files) (path : Text) : Text :=
  match fs.locate path with
  | .ok key => '/' :: ['/'].intercalate key
  | .error _ => path

def read (fs : Files) (path : Text) : Except FileError Text := do
  match fs.entry? (← fs.locate path) with
  | some (.file (.text t)) => return t
  | some (.file _) => throw .notText
  | some .directory => throw .isADirectory
  | none => throw .notFound

/-- The directory in which the last piece of a path is to be found, and that piece. A path that
names nothing there has no last piece. -/
def lastPiece (fs : Files) (path : Text) : Except FileError (List Text × Text) := do
  checkPath path
  let s := Path.shape path
  let pieces := (s.pieces.reverse.dropWhile List.isEmpty).reverse
  match s.lead, pieces.getLast? with
  | .root, some last => do
    let key ← fs.follow [] pieces.dropLast
    if !fs.hasDirectory key then throw .notADirectory
    if Path.idle last || last = ['.', '.'] then throw .exists
    if !nameFits last then throw .nameTooLong
    return (key, last)
  | .root, none => throw .exists
  | _, _ => throw .notFound

def makeDirectory (fs : Files) (path : Text) : Except FileError Files := do
  let (key, last) ← fs.lastPiece path
  match fs.entry? (key ++ [last]) with
  | some _ => throw .exists
  | none => return fs.set (key ++ [last]) .directory

def makeDirectories (fs : Files) : List Text → Except FileError Files
  | [] => .error .notFound
  | p :: ps =>
    if p.isEmpty then .ok fs
    else match fs.makeDirectory p with
      | .ok fs => .ok fs
      | .error .notFound => do
        let fs ← makeDirectories fs ps
        match fs.makeDirectory p with
        | .ok fs => return fs
        | .error e => if fs.isDirectory p then return fs else throw e
      | .error e => if fs.isDirectory p then .ok fs else .error e

def ensureDirectory (fs : Files) (path : Text) : Except FileError Files :=
  fs.makeDirectories (path :: Path.parents path)

def write (fs : Files) (path : Text) (c : Content) : Except FileError Files := do
  if path.getLast? = some '/' then throw .isADirectory
  match fs.lastPiece path with
  | .ok (key, last) =>
    if fs.hasDirectory (key ++ [last]) then throw .isADirectory
    return fs.set (key ++ [last]) (.file c)
  | .error .exists => throw .isADirectory
  | .error e => throw e

end Files

end Jukebox
