import Jukebox.Files
import Jukebox.Library

/-!
A library in a file. The catalogue stays in the file: what is added is written at once, and each
question reads what is there. The version is looked at when the file is opened.
-/

set_option autoImplicit false

namespace Jukebox

inductive OpenError where
  | directory (cause : FileError)
  | unreachable (path : Text)
  | notADatabase
  | version (found : Int)
  deriving DecidableEq, Repr

def OpenError.message : OpenError → Text
  | .directory cause => "I/O error: ".toList ++ cause.message
  | .unreachable path =>
    "failed to open library database at ".toList ++ path ++
      ": unable to open database file: ".toList ++ path
  | .notADatabase => "database error: file is not a database".toList
  | .version found =>
    "library schema version ".toList ++ Text.ofInt found ++ " is not supported (expected ".toList ++
      Text.ofInt Database.currentVersion ++ [')']

namespace Files

/-- The names to which the path of a database leads. Two points take back the name before them,
whether that is there or not. -/
def databaseKey (path : Text) : List Text :=
  (Path.shape path).names.foldl
    (fun key n => if n = ['.', '.'] then key.dropLast else key ++ [n]) []

def database? (fs : Files) (path : Text) : Option Database :=
  match fs.entry? (databaseKey path) with
  | some (.file (.database d)) => some d
  | _ => none

def setDatabase (fs : Files) (path : Text) (d : Database) : Files :=
  fs.set (databaseKey path) (.file (.database d))

/-- Whether a database may have these names: its path, together with a mark for the journal beside
it, has at most 512 bytes. -/
def databaseKeyFits (key : List Text) : Bool :=
  key.all nameFits && Text.bytes ('/' :: ['/'].intercalate key) + 8 ≤ 512

def openable (fs : Files) (path : Text) : Except OpenError Database :=
  let key := databaseKey path
  if path.contains '\x00' || !databaseKeyFits key || !fs.hasDirectory key.dropLast then
    .error (.unreachable path)
  else match fs.entry? key with
    | none => .ok .blank
    | some .directory => .error (.unreachable path)
    | some (.file (.text [])) => .ok .blank
    | some (.file (.database d)) => .ok d
    | some (.file _) => .error .notADatabase

/-- Opens the database in a file, which is made together with its directory if it is missing. -/
def openDatabase (fs : Files) (path : Text) : Except OpenError Unit × Files :=
  match Path.parent? path with
  | some parent => match fs.ensureDirectory parent with
    | .ok fs => prepare fs
    | .error cause => (.error (.directory cause), fs)
  | none => prepare fs
where
  prepare (fs : Files) : Except OpenError Unit × Files :=
    match fs.openable path with
    | .error e => (.error e, fs)
    | .ok d => match d.prepare with
      | .ok d => (.ok (), fs.setDatabase path d)
      | .error found => (.error (.version found), fs)

end Files

structure Disk where
  files : Files
  path : Text
  home : OsText
  isOpen : Bool
  deriving DecidableEq, Repr

namespace Disk

def library? (d : Disk) : Option Library :=
  if d.isOpen then (d.files.database? d.path).map fun db => ⟨d.home, db.catalogue⟩ else none

def reopen (d : Disk) : Except OpenError Unit × Disk :=
  let (answer, files) := d.files.openDatabase d.path
  (answer, { d with files := files, isOpen := answer.isOk })

def add (d : Disk) (t : Track) : Option Addition × Disk :=
  match d.library?, d.files.database? d.path with
  | some lib, some db =>
    let (answer, lib) := lib.add t
    (some answer,
     { d with files := d.files.setDatabase d.path { db with catalogue := lib.catalogue } })
  | _, _ => (none, d)

def setVersion (d : Disk) (version : Option Int) : Option Disk :=
  (d.files.database? d.path).map fun db =>
    { d with files := d.files.setDatabase d.path { db with version } }

end Disk

end Jukebox
