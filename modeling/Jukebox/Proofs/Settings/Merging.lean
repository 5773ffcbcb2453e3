import Mathlib.Data.List.Forall2
import Jukebox.Settings.Discovery
import Jukebox.Settings.Merge
import Jukebox.Toml.Writer

/-!
Settings from several files. Each setting is searched for by itself, from the first file on,
whatever else the files define. Loading fails just if a file cannot be read or understood, for the
first such file.
-/

set_option autoImplicit false

namespace Jukebox

namespace SettingsFile

def musicHome? (f : SettingsFile) : Option Text := f.raw.library.bind RawLibrary.musicHome

def database? (f : SettingsFile) : Option Text := f.raw.library.bind RawLibrary.database

def command? (f : SettingsFile) : Option Text := f.raw.player.bind RawPlayer.command

def args? (f : SettingsFile) : Option (List Text) := f.raw.player.bind RawPlayer.args

/-- The music home that a file names, as seen from the directory of the file. -/
def resolvedHome? (home : Text) (f : SettingsFile) : Option Text :=
  f.musicHome?.map (Path.resolve home f.directory)

/-- A file that defines no setting, though it may have sections and ask to be a root. -/
structure Silent (f : SettingsFile) : Prop where
  musicHome : f.musicHome? = none
  database : f.database? = none
  command : f.command? = none
  args : f.args? = none

end SettingsFile

/-- A value of the first file that gives one, or the default where none does. -/
def FirstGiven {α : Type} (given? : SettingsFile → Option α) (files : List SettingsFile)
    (default v : α) : Prop :=
  (∃ front f back, files = front ++ f :: back ∧ (∀ g ∈ front, given? g = none) ∧
    given? f = some v) ∨ (∀ f ∈ files, given? f = none) ∧ v = default

/-- Settings of which each comes from the first file that defines it. -/
structure Settings.FirstDefined (home : Text) (files : List SettingsFile)
    (s : Settings) : Prop where
  musicHome : FirstGiven (SettingsFile.resolvedHome? home) files
    (default home).musicHome s.musicHome
  database : FirstGiven SettingsFile.database? files (default home).database s.database
  command : FirstGiven SettingsFile.command? files (default home).command s.command
  args : FirstGiven SettingsFile.args? files (default home).args s.args

structure Settings.SameWhereDefined (files : List SettingsFile) (s t : Settings) : Prop where
  musicHome : (∃ f ∈ files, f.musicHome? ≠ none) → s.musicHome = t.musicHome
  database : (∃ f ∈ files, f.database? ≠ none) → s.database = t.database
  command : (∃ f ∈ files, f.command? ≠ none) → s.command = t.command
  args : (∃ f ∈ files, f.args? ≠ none) → s.args = t.args

theorem firstGiven_findSome? {α : Type} (given? : SettingsFile → Option α)
    (files : List SettingsFile) (default : α) :
    FirstGiven given? files default ((files.findSome? given?).getD default) := by
  cases h : files.findSome? given? with
  | none => exact .inr ⟨List.findSome?_eq_none_iff.1 h, rfl⟩
  | some v =>
    obtain ⟨front, f, back, hfiles, hf, hfront⟩ := List.findSome?_eq_some_iff.1 h
    exact .inl ⟨front, f, back, hfiles, hfront, hf⟩

/-! The settings of all files, by a search for each. -/

section Overlay

variable {α : Type} {given? : SettingsFile → Option α} {home : Text}

/-- Files that overwrite a setting one after the other leave what the first of them gives. -/
theorem value_foldr (value : Settings → α)
    (h : ∀ f s, value (SettingsFile.overlay home f s) = (given? f).getD (value s))
    (files : List SettingsFile) (s : Settings) :
    value (files.foldr (SettingsFile.overlay home) s) =
      (files.findSome? given?).getD (value s) := by
  induction files with
  | nil => rfl
  | cons f files ih =>
    rw [List.foldr_cons, h, ih, List.findSome?_cons]
    cases given? f <;> rfl

end Overlay

namespace Config

variable (home : Text) (files : List SettingsFile)

theorem musicHome_overlay (f : SettingsFile) (s : Settings) :
    (f.overlay home s).musicHome = (f.resolvedHome? home).getD s.musicHome := by
  rw [SettingsFile.overlay, SettingsFile.resolvedHome?, SettingsFile.musicHome?]
  cases f.raw.library.bind RawLibrary.musicHome <;> rfl

theorem musicHome_merge : (merge home files).settings.musicHome =
    (files.findSome? (SettingsFile.resolvedHome? home)).getD (Settings.default home).musicHome :=
  value_foldr Settings.musicHome (musicHome_overlay home) files _

theorem musicHome_merge_of_first {front back : List SettingsFile} {f : SettingsFile} {p : Text}
    (hfront : ∀ g ∈ front, g.musicHome? = none) (hf : f.musicHome? = some p) :
    (merge home (front ++ f :: back)).settings.musicHome = Path.resolve home f.directory p := by
  have hnone : front.findSome? (SettingsFile.resolvedHome? home) = none :=
    List.findSome?_eq_none_iff.2 fun g hg => Option.map_eq_none_iff.2 (hfront g hg)
  have hsome : f.resolvedHome? home = some (Path.resolve home f.directory p) := by
    rw [SettingsFile.resolvedHome?, hf]
    rfl
  rw [musicHome_merge, List.findSome?_append, hnone, Option.none_or, List.findSome?_cons, hsome]
  rfl

theorem database_merge : (merge home files).settings.database =
    (files.findSome? SettingsFile.database?).getD (Settings.default home).database :=
  value_foldr Settings.database (fun _ _ => rfl) files _

theorem command_merge : (merge home files).settings.command =
    (files.findSome? SettingsFile.command?).getD (Settings.default home).command :=
  value_foldr Settings.command (fun _ _ => rfl) files _

theorem args_merge : (merge home files).settings.args =
    (files.findSome? SettingsFile.args?).getD (Settings.default home).args :=
  value_foldr Settings.args (fun _ _ => rfl) files _

theorem firstDefined_merge : (merge home files).settings.FirstDefined home files where
  musicHome := musicHome_merge home files ▸ firstGiven_findSome? _ _ _
  database := database_merge home files ▸ firstGiven_findSome? _ _ _
  command := command_merge home files ▸ firstGiven_findSome? _ _ _
  args := args_merge home files ▸ firstGiven_findSome? _ _ _

theorem sameWhereDefined_append (more : List SettingsFile) :
    (merge home (files ++ more)).settings.SameWhereDefined files (merge home files).settings := by
  have hsearch {α : Type} (given? : SettingsFile → Option α) (default : α)
      (h : ∃ f ∈ files, given? f ≠ none) :
      ((files ++ more).findSome? given?).getD default = (files.findSome? given?).getD default := by
    obtain ⟨f, hf, hgiven⟩ := h
    rw [List.findSome?_append]
    cases hfound : files.findSome? given? with
    | none => exact absurd (List.findSome?_eq_none_iff.1 hfound f hf) hgiven
    | some v => rfl
  constructor
  · rintro ⟨f, hf, hgiven⟩
    rw [musicHome_merge, musicHome_merge]
    exact hsearch _ _ ⟨f, hf, by simpa [SettingsFile.resolvedHome?] using hgiven⟩
  · rw [database_merge, database_merge]
    exact hsearch _ _
  · rw [command_merge, command_merge]
    exact hsearch _ _
  · rw [args_merge, args_merge]
    exact hsearch _ _

theorem overlay_silent {f : SettingsFile} (hf : f.Silent) (s : Settings) :
    f.overlay home s = s := by
  have hhome := hf.musicHome
  have hdatabase := hf.database
  have hcommand := hf.command
  have hargs := hf.args
  rw [SettingsFile.musicHome?] at hhome
  rw [SettingsFile.database?] at hdatabase
  rw [SettingsFile.command?] at hcommand
  rw [SettingsFile.args?] at hargs
  rw [SettingsFile.overlay, hhome, hdatabase, hcommand, hargs]
  rfl

/-- A file that defines nothing is only listed, wherever it comes but at the front. -/
theorem merge_silent {f : SettingsFile} (hf : f.Silent) {front : List SettingsFile}
    (hfront : front ≠ []) (back : List SettingsFile) :
    merge home (front ++ f :: back) = { merge home (front ++ back) with
      files := front.map SettingsFile.path ++ f.path :: back.map SettingsFile.path } := by
  obtain ⟨g, front, rfl⟩ := List.exists_cons_of_ne_nil hfront
  simp only [merge, List.foldr_append, List.foldr_cons, overlay_silent home hf, List.map_append,
    List.map_cons, List.cons_append, List.head?_cons]

theorem overlay?_home (f : SettingsFile) (s : Settings) :
    f.overlay? (some home) s = some (f.overlay home s) := by
  have hexpand (p : Text) : Path.expandHome? (some home) p = some (Path.expandHome home p) := by
    unfold Path.expandHome?
    split
    · rfl
    · rfl
    · next hhome hpath =>
      rw [Path.expandHome]
      exacts [hhome, hpath]
  rw [SettingsFile.overlay?, SettingsFile.overlay]
  cases f.raw.library.bind RawLibrary.musicHome with
  | none => rfl
  | some p => simp only [Path.resolve?, hexpand, Path.resolve]; rfl

theorem merge?_home : merge? (some home) files = some (merge home files) := by
  have hfold : files.foldrM (SettingsFile.overlay? (some home)) (.defaultOf (some home)) =
      some (files.foldr (SettingsFile.overlay home) (.default home)) := by
    induction files with
    | nil => rfl
    | cons f files ih => rw [List.foldrM_cons, ih, List.foldr_cons, ← overlay?_home]; rfl
  rw [merge?, hfold]
  rfl

example : merge? none [⟨"/a".toList, ⟨none, some ⟨some ['~'], none⟩, none⟩⟩] = none := rfl

end Config

/-! Loading. -/

theorem mapM_eq_ok_iff {ε α β : Type} {f : α → Except ε β} {as : List α} {bs : List β} :
    as.mapM f = .ok bs ↔ List.Forall₂ (fun a b => f a = .ok b) as bs := by
  induction as generalizing bs with
  | nil => simp [pure, Except.pure, eq_comm]
  | cons a as ih =>
    rw [List.mapM_cons, List.forall₂_cons_left_iff]
    cases ha : f a with
    | error e => simp [bind, Except.bind]
    | ok b =>
      simp only [← ih, Except.ok.injEq]
      cases as.mapM f <;> simp [bind, Except.bind, pure, Except.pure, eq_comm]

theorem mapM_eq_error_iff {ε α β : Type} {f : α → Except ε β} {as : List α} {e : ε} :
    as.mapM f = .error e ↔ ∃ front a back, as = front ++ a :: back ∧
      (∀ b ∈ front, ∃ c, f b = .ok c) ∧ f a = .error e := by
  induction as with
  | nil => simp [pure, Except.pure]
  | cons a as ih =>
    rw [List.mapM_cons]
    constructor
    · intro h
      cases ha : f a with
      | error e' =>
        rw [ha] at h
        cases h
        exact ⟨[], a, as, rfl, nofun, ha⟩
      | ok b =>
        have hrest : as.mapM f = .error e := by
          rw [ha] at h
          cases hr : as.mapM f with
          | error e' =>
            rw [hr] at h
            exact h
          | ok bs =>
            rw [hr] at h
            cases h
        obtain ⟨front, c, back, rfl, hfront, hc⟩ := ih.1 hrest
        exact ⟨a :: front, c, back, rfl, List.forall_mem_cons.2 ⟨⟨b, ha⟩, hfront⟩, hc⟩
    · rintro ⟨front, c, back, has, hfront, hc⟩
      obtain ⟨rfl, hcons⟩ | ⟨front, rfl, rfl⟩ := List.cons_eq_append_iff.1 has
      · cases hcons
        rw [hc]
        rfl
      · obtain ⟨⟨b, hb⟩, hfront⟩ := List.forall_mem_cons.1 hfront
        rw [hb, ih.2 ⟨front, c, back, rfl, hfront, hc⟩]
        rfl

namespace Files

variable {toml : Toml.Codec} {fs : Files} {path : Text} {paths : List Text}

def Gives (toml : Toml.Codec) (fs : Files) (path : Text) (raw : RawSettings) : Prop :=
  ∃ t, fs.read path = .ok t ∧ RawSettings.parse? toml t = some raw

inductive Refuses (toml : Toml.Codec) (fs : Files) (path : Text) : ConfigError → Prop where
  | unreadable {cause} (h : fs.read path = .error cause) :
      Refuses toml fs path (.unreadable path cause)
  | malformed {t} (h : fs.read path = .ok t) (hp : RawSettings.parse? toml t = none) :
    Refuses toml fs path (.malformed path)

theorem readSettings_eq_ok_iff {f : SettingsFile} :
    fs.readSettings toml path = .ok f ↔ f.path = path ∧ fs.Gives toml path f.raw := by
  obtain ⟨name, raw⟩ := f
  rw [readSettings, Gives]
  cases fs.read path with
  | error e => simp
  | ok t => cases hp : RawSettings.parse? toml t <;> simp [hp, eq_comm]

theorem readSettings_eq_error_iff {e : ConfigError} :
    fs.readSettings toml path = .error e ↔ fs.Refuses toml path e := by
  rw [readSettings]
  constructor
  · intro h
    cases hr : fs.read path with
    | error cause =>
      rw [hr] at h
      cases h
      exact .unreadable hr
    | ok t =>
      rw [hr] at h
      cases hp : RawSettings.parse? toml t with
      | none =>
        simp only [hp] at h
        cases h
        exact .malformed hr hp
      | some raw =>
        simp only [hp] at h
        cases h
  · intro h
    cases h with
    | unreadable h => rw [h]
    | malformed h hp => simp only [h, hp]

theorem loadFiles_eq_error_iff {home : Text} {e : ConfigError} :
    fs.loadFiles toml home paths = .error e ↔ ∃ front path back, paths = front ++ path :: back ∧
      (∀ p ∈ front, ∃ raw, fs.Gives toml p raw) ∧ fs.Refuses toml path e := by
  have hload : fs.loadFiles toml home paths = .error e ↔
      paths.mapM (fs.readSettings toml) = .error e := by
    rw [loadFiles]
    cases paths.mapM (fs.readSettings toml) <;> simp [Except.map]
  have hgives (p : Text) : (∃ f, fs.readSettings toml p = .ok f) ↔ ∃ raw, fs.Gives toml p raw := by
    simp only [readSettings_eq_ok_iff]
    exact ⟨fun ⟨f, _, hf⟩ => ⟨f.raw, hf⟩, fun ⟨raw, h⟩ => ⟨⟨p, raw⟩, rfl, h⟩⟩
  rw [hload, mapM_eq_error_iff]
  simp only [hgives, readSettings_eq_error_iff]

theorem loadFiles_eq_ok_iff {home : Text} {c : Config} :
    fs.loadFiles toml home paths = .ok c ↔ ∃ files,
      List.Forall₂ (fun p f => f.path = p ∧ fs.Gives toml p f.raw) paths files ∧
        c = Config.merge home files := by
  simp only [← readSettings_eq_ok_iff, ← mapM_eq_ok_iff]
  rw [loadFiles]
  cases paths.mapM (fs.readSettings toml) <;> simp [Except.map, eq_comm]

theorem loadFiles_fails_iff {home : Text} : (∃ e, fs.loadFiles toml home paths = .error e) ↔
    ∃ p ∈ paths, ∃ e, fs.Refuses toml p e := by
  constructor
  · rintro ⟨e, h⟩
    obtain ⟨front, p, back, rfl, -, hp⟩ := loadFiles_eq_error_iff.1 h
    exact ⟨p, List.mem_append_cons_self, e, hp⟩
  · rintro ⟨p, hp, e, he⟩
    cases h : fs.loadFiles toml home paths with
    | error e => exact ⟨e, rfl⟩
    | ok c =>
      obtain ⟨files, hall, -⟩ := loadFiles_eq_ok_iff.1 h
      have hgives : ∀ p ∈ paths, ∃ raw, fs.Gives toml p raw :=
        ((List.forall₂_and_left paths files).1 (hall.imp fun _ f h => ⟨⟨f.raw, h.2⟩, h⟩)).1
      obtain ⟨raw, hraw⟩ := hgives p hp
      have hok : fs.readSettings toml p = .ok ⟨p, raw⟩ := readSettings_eq_ok_iff.2 ⟨rfl, hraw⟩
      rw [readSettings_eq_error_iff.2 he] at hok
      cases hok

end Files

/-- With a known home directory every list of files can be merged. Each setting comes from the first
file that defines it, whatever else the files define, and a music home is seen from the directory of
that very file. So files that are added at the end decide only what no other file defines, and a
file that defines nothing changes nothing, unless it comes first and so gives the root. Loading
fails just if a file cannot be read or understood, for the first such file. -/
theorem Config.merge_first_defined (toml : Toml.Codec) (home : Text)
    (files : List SettingsFile) :
    let c := merge home files
    merge? (some home) files = some c ∧
    c.settings.FirstDefined home files ∧
    c.root = files.head?.map SettingsFile.directory ∧
    c.files = files.map SettingsFile.path ∧
    (files ≠ [] → ∀ more, (merge home (files ++ more)).root = c.root ∧
      (merge home (files ++ more)).settings.SameWhereDefined files c.settings) ∧
    (∀ front f back, files = front ++ back → front ≠ [] → f.Silent →
      merge home (front ++ f :: back) = { c with
        files := front.map SettingsFile.path ++ f.path :: back.map SettingsFile.path }) ∧
    ∀ (fs : Files) (paths : List Text),
      ((∃ e, fs.loadFiles toml home paths = .error e) ↔ ∃ p ∈ paths, ∃ e, fs.Refuses toml p e) ∧
      (∀ e, fs.loadFiles toml home paths = .error e ↔
        ∃ front path back, paths = front ++ path :: back ∧
        (∀ p ∈ front, ∃ raw, fs.Gives toml p raw) ∧ fs.Refuses toml path e) ∧
      ∀ d, fs.loadFiles toml home paths = .ok d ↔ ∃ read,
        List.Forall₂ (fun p f => f.path = p ∧ fs.Gives toml p f.raw) paths read ∧
          d = merge home read := by
  intro c
  refine ⟨merge?_home home files, firstDefined_merge home files, rfl, rfl, ?_, ?_, fun fs paths =>
    ⟨Files.loadFiles_fails_iff, fun e => Files.loadFiles_eq_error_iff, fun d =>
      Files.loadFiles_eq_ok_iff⟩⟩
  · intro hne more
    refine ⟨?_, sameWhereDefined_append home files more⟩
    obtain ⟨f, files, rfl⟩ := List.exists_cons_of_ne_nil hne
    rfl
  · rintro front f back rfl hfront hf
    exact merge_silent home hf hfront back

theorem Config.merge_first_defined_two_files :
    let home := "/h".toList
    let near : SettingsFile := ⟨"/a/b/.cantrip.toml".toList,
      ⟨none, none, some ⟨some "vlc".toList, none⟩⟩⟩
    let above : SettingsFile := ⟨"/a/.cantrip.toml".toList,
      ⟨none, some ⟨some "tunes".toList, none⟩, some ⟨some "mpv".toList, some []⟩⟩⟩
    let global : SettingsFile := ⟨"/h/.cantrip.toml".toList,
      ⟨none, some ⟨some "~".toList, some "lib.db".toList⟩, none⟩⟩
    let empty : SettingsFile := ⟨"/a/b/c".toList, ⟨some true, some ⟨none, none⟩, none⟩⟩
    let c := merge home [near, above]
    let fs := (Files.empty.set [['c']] (.file (.text []))).set [['d']] (.file (.text ['[']))
    [near, above] ≠ [] ∧ [near] ≠ [] ∧ empty.Silent ∧
      c.settings = ⟨"/a/tunes".toList, ".metadata.db".toList, "vlc".toList, []⟩ ∧
      (merge home [near, above, global]).settings =
        { c.settings with database := "lib.db".toList } ∧
      (merge home [near, above, global]).settings.SameWhereDefined [near, above] c.settings ∧
      merge home [near, empty, above] = { c with files := [near.path, empty.path, above.path] } ∧
      fs.loadFiles Toml.codec home [['/', 'c'], ['/', 'd'], ['/', 'e']] =
        .error (.malformed ['/', 'd']) := by
  intro home near above global empty c fs
  have hsilent : empty.Silent := ⟨rfl, rfl, rfl, rfl⟩
  have hne : [near, above] ≠ [] := List.cons_ne_nil _ _
  have hfront : [near] ≠ [] := List.cons_ne_nil _ _
  obtain ⟨-, -, -, -, happend, hinsert, hload⟩ := merge_first_defined Toml.codec home [near, above]
  obtain ⟨-, herror, -⟩ := hload fs [['/', 'c'], ['/', 'd'], ['/', 'e']]
  refine ⟨hne, hfront, hsilent, by decide, by decide, (happend hne [global]).2,
    hinsert [near] empty [above] rfl hfront hsilent, (herror _).2 ?_⟩
  refine ⟨[['/', 'c']], ['/', 'd'], [['/', 'e']], rfl, ?_, ?_⟩
  · exact List.forall_mem_singleton.2 ⟨⟨none, none, none⟩, [], rfl, by decide⟩
  · exact .malformed (t := ['[']) rfl (by decide)

end Jukebox
