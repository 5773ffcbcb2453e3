import Jukebox.Command
import Jukebox.Command.Player
import Jukebox.Command.Style
import Jukebox.Library.Disk
import Jukebox.Settings.Discovery
import Jukebox.Settings.Template
import Jukebox.Settings.Warning
import Jukebox.Statement
import Jukebox.Text.Json

set_option autoImplicit false

namespace Jukebox

structure Host where
  files : Files
  home : Text
  cwd : Text
  seed : Nat
  programs : Programs
  toml : Toml.Codec

structure Outcome where
  succeeded : Bool
  output : Text
  errors : Text
  files : Files

namespace Outcome

def lines (ls : List Text) : Text := ls.flatMap (· ++ ['\n'])

def success (files : Files) (ls : List Text) : Outcome := ⟨true, lines ls, [], files⟩

def failure (files : Files) (ls : List Text) : Outcome := ⟨false, [], lines ls, files⟩

def after (ls : List Text) (o : Outcome) : Outcome := { o with output := lines ls ++ o.output }

end Outcome

def errorLine (message : Text) : Text := "error: ".toList ++ message

def statementErrorLine (e : StatementError) : Text :=
  errorLine ("database error: ".toList ++ e.message)

def queryText (words : List Text) : Text := Text.join " " words

namespace Host

def withLibrary (h : Host) (s : Settings) (run : Disk → Library → Outcome) : Outcome :=
  let (answer, disk) := (⟨h.files, s.databasePath, Text.utf8 s.musicHome, false⟩ : Disk).reopen
  match answer, disk.library? with
  | .ok (), some lib => run disk lib
  | .ok (), none => .failure disk.files []
  | .error e, _ => .failure disk.files [errorLine e.message]

def withSelection (h : Host) (s : Settings) (words : List Text)
    (run : Files → List Text → Outcome) : Outcome :=
  h.withLibrary s fun disk lib => match lib.select h.seed (queryText words) with
    | .ok paths => run disk.files (paths.map OsText.lossy)
    | .error (.query e) => .failure disk.files [e.display]
    | .error (.statement e) => .failure disk.files [statementErrorLine e]

def add (h : Host) (s : Settings) (path title : Text) (album : Option Text) (artists : List Text)
    (number : Option Nat) : Outcome :=
  let path := Path.join h.cwd path
  if !h.files.isFile path then .failure h.files [errorLine ("not a file: ".toList ++ path)]
  else
    let artists := (artists.map Text.trim).filter (!·.isEmpty)
    let mark (id : Nat) : Text := Style.dim ("(#".toList ++ Text.ofNat id ++ [')'])
    h.withLibrary s fun disk _ =>
      match disk.add ⟨Text.utf8 path, title, album, number, artists⟩ with
      | (some (.added id), disk) =>
        .success disk.files ["Added ".toList ++ title ++ [' '] ++ mark id]
      | (some (.existing id), disk) =>
        .success disk.files ["Already in library: ".toList ++ path ++ [' '] ++ mark id]
      | (none, disk) => .failure disk.files []

def paramList (params : List Text) : Text :=
  ['['] ++ Text.join ", " (params.map Json.string) ++ [']']

def explainPlan (number : Nat) (p : Plan) : List Text :=
  let s := p.statement
  let params := if s.params.isEmpty then []
    else [Style.margin ++ Style.dim ("params: ".toList ++ paramList s.params)]
  [Style.bold ("Plan ".toList ++ Text.ofNat number ++ [':']), Style.indent p.tree,
    Style.indent s.sql] ++ params ++ [[]]

def explain (h : Host) (words : List Text) : Outcome :=
  match Query.parse (queryText words) with
  | .error e => .failure h.files [e.display]
  | .ok q =>
    let plans := (List.range' 1 q.plans.length).zip q.plans
    .success h.files ([Style.bold "Query:".toList, Style.margin ++ q.render, []] ++
      plans.flatMap fun (number, p) => explainPlan number p)

def selectionJson (query : Text) (paths : List Text) : List Text :=
  let entries := match paths with
    | [] => ["  \"paths\": []".toList]
    | _ =>
      let items := paths.map fun p => "    ".toList ++ Json.string p
      ["  \"paths\": [".toList, Text.join ",\n" items, "  ]".toList]
  [['\x7b'], "  \"query\": ".toList ++ Json.string query ++ [','],
    "  \"total\": ".toList ++ Text.ofNat paths.length ++ [',']] ++ entries ++ [['\x7d']]

def select (h : Host) (s : Settings) (words : List Text) (json : Bool) : Outcome :=
  h.withSelection s words fun files paths =>
    .success files (if json then selectionJson (queryText words) paths else paths)

def play (h : Host) (s : Settings) (words : List Text) : Outcome :=
  h.withSelection s words fun files paths =>
    if paths.isEmpty then .success files ["Nothing to play.".toList]
    else match files.launch h.programs h.cwd s.command (s.args ++ paths) with
      | .ok ⟨output, 0⟩ => ⟨true, output, [], files⟩
      | .ok ⟨output, status⟩ =>
        let message := s.command ++ " exited with exit status: ".toList ++ Text.ofNat status
        ⟨false, output, Outcome.lines [errorLine message], files⟩
      | .error e => .failure files
        [errorLine ("failed to run ".toList ++ s.command ++ ": ".toList ++ e.message)]

def commandsStartingWith (start : Text) : List Text :=
  (Subcommand.all.map Subcommand.text).filter (Text.startsWith start)

/-- The options that start with the last of the words: those of every command, and after a first
word those of its command. -/
def optionsStartingWith (words : List Text) (start : Text) : List Text :=
  let own := match words with
    | first :: _ :: _ => (Subcommand.ofText? first).elim [] Subcommand.options
    | _ => []
  Text.collapse (Text.sort (((musicHomeOption :: own).map OptionSpec.text).filter
    (Text.startsWith start)))

def isDashed (t : Text) : Bool := t.head? == some '-'

def complete (h : Host) (s : Settings) (words : List Text) : Outcome :=
  match words, words.getLast? with
  | [], _ | _, none => .success h.files (commandsStartingWith [])
  | first :: rest, some last =>
    if isDashed last then .success h.files (optionsStartingWith words last)
    else if (Subcommand.ofText? first).any Subcommand.takesQuery then
      h.withLibrary s fun disk lib =>
        match lib.completions (queryText (rest.filter (!isDashed ·))) with
        | .ok values => .success disk.files values
        | .error e => .failure disk.files [statementErrorLine e]
    else if rest.isEmpty then .success h.files (commandsStartingWith first)
    else .success h.files []

/-- The file that is written: that of the home directory if asked for or in the home directory,
and else that of the current one. -/
def initTarget (h : Host) (isGlobal : Bool) : Text × Bool :=
  let global := settingsIn h.home
  let atHome := (Path.parent? global).any fun d => Path.same d h.cwd
  if isGlobal || atHome then (global, true) else (settingsIn h.cwd, false)

def init (h : Host) (isGlobal force : Bool) : Outcome :=
  let (path, isGlobal) := h.initTarget isGlobal
  if h.files.exists? path && !force then
    .failure h.files [errorLine ("configuration file already exists: ".toList ++ path),
      "use --force to overwrite".toList]
  else
    let template := Template.text isGlobal
    match h.files.write path (.text template) with
    | .error e =>
      .failure h.files [errorLine ("failed to write ".toList ++ path ++ ": ".toList ++ e.message)]
    | .ok files => .success files ["Created ".toList ++ path, [],
        Style.bold "Configuration written:".toList, Style.dim (Style.indent template)]

def warningLines (ws : List Warning) : List Text :=
  [Style.bold ("Warnings (".toList ++ Text.ofNat ws.length ++ "):".toList)] ++
    ws.map (fun w => Style.margin ++ Style.warning w.message) ++ [[]] ++
    (ws.filterMap Warning.hint?).map Style.dim

def status (h : Host) (c : Config) : Outcome :=
  let s := c.settings
  let files := match c.files with
    | [] => [Style.margin ++ Style.dim "(none, using defaults)".toList,
        Style.margin ++ "Run ".toList ++ Style.bold "cantrip init".toList ++
          " to create a configuration file.".toList]
    | paths => paths.map (Style.margin ++ ·)
  let front := [Style.header "cantrip".toList, [], Style.bold "Config files:".toList] ++ files ++
    [[], Style.bold "Library:".toList,
      Style.margin ++ "music home ".toList ++ Style.dim s.musicHome,
      Style.margin ++ "database   ".toList ++ Style.dim s.databasePath]
  let warnings := s.warnings h.files
  let report (files : Files) (tracks : Text) : Outcome :=
    let tracks := Style.margin ++ "tracks     ".toList ++ tracks
    if warnings.isEmpty then .success files [tracks, [], "No issues found.".toList]
    else { Outcome.success files ([tracks, []] ++ warningLines warnings) with succeeded := false }
  Outcome.after front <|
    if h.files.isFile s.databasePath then
      h.withLibrary s fun disk lib => report disk.files (Text.ofNat lib.count)
    else report h.files (Style.dim "(no database yet)".toList)

def showSettings (h : Host) (s : Settings) : Outcome :=
  match s.render h.toml with
  | .ok t => ⟨true, t, [], h.files⟩
  | .error e => .failure h.files [errorLine e.message]

def runWith (h : Host) (c : Config) : Command → Outcome
  | .add path title album artists number => h.add c.settings path title album artists number
  | .complete words => h.complete c.settings words
  | .config => h.showSettings c.settings
  | .init isGlobal force => h.init isGlobal force
  | .play words => h.play c.settings words
  | .select words true _ => h.explain words
  | .select words false json => h.select c.settings words json
  | .status => h.status c

def config (h : Host) (i : Invocation) : Except ConfigError Config :=
  (h.files.load h.toml h.home h.cwd).map fun c => match i.musicHome with
    | some p => c.withMusicHome h.home h.cwd p
    | none => c

def run (h : Host) (i : Invocation) : Outcome :=
  match i.command with
  | .init isGlobal force => h.init isGlobal force
  | command => match h.config i with
    | .error e =>
      .failure h.files [errorLine ("failed to load configuration: ".toList ++ e.message)]
    | .ok c => h.runWith c command

end Host

end Jukebox
