import Jukebox.Command.Run
import Jukebox.Library.Listing

/-!
The command line. What a command may look at is taken from the file system first, the command
runs on that, and what it changed is written back. A database is kept as its text.
-/

set_option autoImplicit false

namespace Jukebox.CommandLine

def pathOf (key : List Text) : String := String.ofList ('/' :: ['/'].intercalate key)

def placesTo (path : Text) : List (List Text) :=
  let names := (Path.shape path).names
  (List.range names.length).map fun n =>
    (names.take (n + 1)).foldl (fun key m => if m = ['.', '.'] then key.dropLast else key ++ [m]) []

/-- What is found at a place. The content of a file counts only if it is asked for. -/
def entryAt (withContent : Bool) (key : List Text) : IO (Option Entry) := do
  let path := (← IO.currentDir) / pathOf key
  if ← path.isDir then return some .directory
  if !(← path.pathExists) then return none
  if !withContent then return some (.file (.bytes []))
  let raw ← IO.FS.readBinFile path
  match String.fromUTF8? raw with
  | some t => return some (.file (.text t.toList))
  | none => return some (.file (.bytes raw.toList))

/-- Takes over what is found on the way to a path and under it. -/
def observe (withContent : Bool) (fs : Files) (path : Text) : IO Files :=
  (placesTo path).foldlM (fun fs key => do
    match ← entryAt withContent key with
    | some e => return fs.set key e
    | none => return fs) fs

def openText (path : Text) (fs : Files) : Files :=
  match fs.read path with
  | .ok (c :: t) => match Database.ofText? (c :: t) with
    | some d => fs.setDatabase path d
    | none => fs
  | _ => fs

def hostOf (i : Invocation) (home cwd : Text) (seed : Nat) : IO Host := do
  let settings := (cwd :: Path.parents cwd).map settingsIn ++ [settingsIn home]
  let fs ← settings.foldlM (observe true) .empty
  let host : Host := ⟨fs, home, cwd, seed, Programs.standard, Toml.codec⟩
  match host.config i with
  | .error _ => return host
  | .ok c =>
    let tracks := match i.command with
      | .add path _ _ _ _ => [Path.join cwd path]
      | _ => []
    let fs ← (c.settings.musicHome :: tracks).foldlM (observe false) host.files
    let fs ← observe true fs c.settings.databasePath
    return { host with files := openText c.settings.databasePath fs }

def writeBack (before after : Files) : IO Unit :=
  after.entries.forM fun (key, e) => do
    if before.entry? key != some e then
      match e with
      | .directory => IO.FS.createDirAll (pathOf key)
      | .file (.text t) => IO.FS.writeFile (pathOf key) (String.ofList t)
      | .file (.database d) => IO.FS.writeFile (pathOf key) (String.ofList d.text)
      | .file (.bytes _) => pure ()

def usage : String :=
  "usage: cantrip [--music-home PATH] COMMAND ...\ncommands: " ++
    ", ".intercalate (Subcommand.all.map Subcommand.name)

end Jukebox.CommandLine

open Jukebox in
def main (args : List String) : IO UInt32 := do
  let environment := (← IO.getEnv "CANTRIP_MUSIC_HOME").map String.toList
  match Invocation.read? environment (args.map String.toList) with
  | none =>
    IO.eprintln CommandLine.usage
    return 2
  | some i =>
    let home := ((← IO.getEnv "HOME").getD "/").toList
    let cwd := (← IO.currentDir).toString.toList
    let host ← CommandLine.hostOf i home cwd (← IO.monoNanosNow)
    let outcome := host.run i
    CommandLine.writeBack host.files outcome.files
    IO.print (String.ofList outcome.output)
    IO.eprint (String.ofList outcome.errors)
    return if outcome.succeeded then 0 else 1
