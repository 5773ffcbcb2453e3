import Jukebox.Proofs.Settings.Search
import Jukebox.Proofs.Settings.Template

/-!
A tree of files that gains a file which says nothing. The settings in force anywhere stay what they
were: the file may be found on the way, but it neither ends the search nor decides a setting.
-/

set_option autoImplicit false

namespace Jukebox

namespace Files

variable {toml : Toml.Codec} {fs gs : Files} {t : Text}

theorem read_text {path : Text} {key : List Text} (hl : fs.locate path = .ok key)
    (he : fs.entry? key = some (.file (.text t))) : fs.read path = .ok t := by
  rw [read, hl]
  simp only [bind, Except.bind, he]
  rfl

/-- What is a file stays the same file, and any other file is new and has the text. -/
structure Gains (fs gs : Files) (t : Text) : Prop where
  kept : ∀ path, fs.isFile path → gs.isFile path ∧ gs.read path = fs.read path
  new : ∀ path, gs.isFile path → fs.isFile path = false → gs.read path = .ok t

theorem gains_newFile {key : List Text} (hnew : fs.entry? key = none) (t : Text) :
    Gains fs (fs.set key (.file (.text t))) t := by
  have hne : key ≠ [] := ne_nil_of_entry? (by rw [hnew]; nofun)
  refine ⟨fun path hfile => ?_, fun path hfile hno => ?_⟩
  · obtain ⟨k, c, hl, hc⟩ := isFile_iff.1 hfile
    have hk : k ≠ key := by
      rintro rfl
      rw [hnew] at hc
      cases hc
    have hl' : (fs.set key (.file (.text t))).locate path = .ok k := (grows_newFile hnew).locate hl
    have hsame := fs.entry?_set_of_ne hk (.file (.text t))
    exact ⟨isFile_iff.2 ⟨k, c, hl', hsame.trans hc⟩, read_congr hl hl' hsame⟩
  · obtain ⟨k, c, hl, hc⟩ := isFile_iff.1 hfile
    by_cases hk : k = key
    · subst hk
      exact read_text hl (fs.entry?_set_self hne _)
    · rw [fs.entry?_set_of_ne hk] at hc
      have hold := (locate_newFile hnew hl).resolve_left hk
      rw [isFile_iff.2 ⟨k, c, hold, hc⟩] at hno
      cases hno

/-- Paths of the same components lead to the same file under a name. -/
theorem locate_of_same {d e n : Text} (hn : Path.IsFileName n)
    (hsame : Path.same (Path.join d n) (Path.join e n))
    (hcheck : checkPath (Path.join d n) = .ok ()) {k : List Text}
    (hl : fs.locate (Path.join e n) = .ok k) : fs.locate (Path.join d n) = .ok k := by
  obtain ⟨front, hd, -, hdnames⟩ := Path.shape_join d hn
  obtain ⟨back, he, -, henames⟩ := Path.shape_join e hn
  have hcomponents : Path.components d = Path.components e := by
    have hjoin := beq_iff_eq.1 hsame
    rw [Path.components_join d hn, Path.components_join e hn] at hjoin
    exact List.append_cancel_right hjoin
  obtain ⟨hlead, hnames⟩ := Path.Shape.components_inj hcomponents
  obtain ⟨-, hroot, hfollow⟩ := locate_eq_ok.1 hl
  rw [he] at hroot hfollow
  rw [locate_eq_ok, hd]
  refine ⟨hcheck, hlead.trans hroot, ?_⟩
  rw [follow_names, hdnames, hnames, ← henames, ← follow_names]
  exact hfollow

theorem isFile_of_same {d e : Text} (hsame : Path.same (settingsIn d) (settingsIn e))
    (hd : gs.isFile (settingsIn d)) (he : fs.isFile (settingsIn e)) : fs.isFile (settingsIn d) := by
  obtain ⟨k, c, hl, -⟩ := isFile_iff.1 hd
  obtain ⟨m, c', hm, hc'⟩ := isFile_iff.1 he
  have hcheck := (locate_eq_ok.1 hl).1
  exact isFile_iff.2 ⟨m, c', locate_of_same isFileName_settingsName hsame hcheck hm, hc'⟩

theorem overlay_blank (home path : Text) (s : Settings) :
    SettingsFile.overlay home ⟨path, .blank⟩ s = s := rfl

section Gains

variable (h : Gains fs gs t) (ht : RawSettings.parse? toml t = some .blank)
include h ht

theorem Gains.readSettings_new {path : Text} (hg : gs.isFile path) (hf : fs.isFile path = false) :
    gs.readSettings toml path = .ok ⟨path, .blank⟩ := by
  rw [readSettings, h.new path hg hf]
  simp only [ht]

theorem Gains.governing (ds : List Text) :
    fs.governing toml ds =
      ((gs.governing toml ds).1.filter fs.isFile, (gs.governing toml ds).2) := by
  induction ds with
  | nil => rfl
  | cons d ds ih =>
    rw [Files.governing, Files.governing]
    cases hf : fs.isFile (settingsIn d) with
    | true =>
      obtain ⟨hg, hread⟩ := h.kept _ hf
      have hroot : gs.isRootSettings toml (settingsIn d) =
          fs.isRootSettings toml (settingsIn d) := by
        rw [isRootSettings, isRootSettings, hread]
      rw [hg, hroot]
      cases fs.isRootSettings toml (settingsIn d) with
      | true => simp [hf]
      | false => simp [hf, ih]
    | false =>
      cases hg : gs.isFile (settingsIn d) with
      | false => simpa using ih
      | true =>
        have hroot : gs.isRootSettings toml (settingsIn d) = false := by
          rw [isRootSettings, h.new _ hg hf]
          simp [ht, RawSettings.blank]
        simp [hroot, hf, ih]

/-- The search finds what it found before, and new files between. The global file is not passed over
for one of them: it would be the same file under another path. -/
theorem Gains.discover (home cwd : Text) :
    fs.discover toml home cwd = (gs.discover toml home cwd).filter fs.isFile := by
  rw [discover_eq, discover_eq, h.governing ht]
  dsimp only
  have hmem : ∀ p ∈ (gs.governing toml (cwd :: Path.parents cwd)).1,
      gs.isFile p ∧ ∃ d, p = settingsIn d := fun p hp => mem_governing hp
  generalize gs.governing toml (cwd :: Path.parents cwd) = g at hmem ⊢
  cases hf : fs.isFile (settingsIn home) with
  | false =>
    rw [if_neg (by simp)]
    split
    · rw [List.filter_append, List.filter_cons_of_neg (by simp [hf])]
      exact (List.append_nil _).symm
    · rfl
  | true =>
    have hg := (h.kept _ hf).1
    have hany : (g.1.filter fs.isFile).any (Path.same (settingsIn home)) =
        g.1.any (Path.same (settingsIn home)) := by
      rw [Bool.eq_iff_iff, List.any_eq_true, List.any_eq_true]
      constructor
      · rintro ⟨p, hp, hsame⟩
        exact ⟨p, (List.mem_filter.1 hp).1, hsame⟩
      · rintro ⟨p, hp, hsame⟩
        obtain ⟨hgp, d, rfl⟩ := hmem p hp
        refine ⟨settingsIn d, List.mem_filter.2 ⟨hp, isFile_of_same ?_ hgp hf⟩, hsame⟩
        rwa [Path.same, beq_iff_eq, eq_comm, ← beq_iff_eq]
    rw [hg, hany]
    split
    · rw [List.filter_append, List.filter_cons_of_pos hf]
      rfl
    · rfl

theorem Gains.loadFiles (home : Text) {paths : List Text} (hpaths : ∀ p ∈ paths, gs.isFile p) :
    (gs.loadFiles toml home paths).map Config.settings =
      (fs.loadFiles toml home (paths.filter fs.isFile)).map Config.settings := by
  let settings (files : List SettingsFile) : Settings :=
    files.foldr (SettingsFile.overlay home) (.default home)
  have hload (fs : Files) (paths : List Text) : (fs.loadFiles toml home paths).map Config.settings =
      (paths.mapM (fs.readSettings toml)).map settings := by
    rw [Files.loadFiles]
    cases paths.mapM (fs.readSettings toml) <;> rfl
  have hcons (fs : Files) (p : Text) (paths : List Text) :
      ((p :: paths).mapM (fs.readSettings toml)).map settings =
        (fs.readSettings toml p).bind fun f =>
        ((paths.mapM (fs.readSettings toml)).map settings).map (SettingsFile.overlay home f) := by
    rw [List.mapM_cons]
    cases fs.readSettings toml p with
    | error e => rfl
    | ok f => cases paths.mapM (fs.readSettings toml) <;> rfl
  rw [hload, hload]
  induction paths with
  | nil => rfl
  | cons p paths ih =>
    have hrest := ih fun p hp => hpaths p (List.mem_cons_of_mem _ hp)
    cases hf : fs.isFile p with
    | true =>
      have hsame : gs.readSettings toml p = fs.readSettings toml p := by
        rw [Files.readSettings, Files.readSettings, (h.kept p hf).2]
      rw [List.filter_cons_of_pos hf, hcons, hcons, hsame, hrest]
    | false =>
      rw [List.filter_cons_of_neg (by simp [hf]), hcons,
        h.readSettings_new ht (hpaths p List.mem_cons_self) hf, ← hrest]
      cases (paths.mapM (gs.readSettings toml)).map settings with
      | error e => rfl
      | ok s => exact congrArg Except.ok (overlay_blank home p s)

theorem Gains.load (home cwd : Text) :
    (gs.load toml home cwd).map Config.settings = (fs.load toml home cwd).map Config.settings := by
  rw [Files.load, Files.load, h.loadFiles ht home fun p => isFile_of_mem_discover, h.discover ht]

end Gains

end Files

end Jukebox
