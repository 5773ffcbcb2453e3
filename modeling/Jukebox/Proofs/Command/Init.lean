import Jukebox.Command.Run
import Jukebox.Proofs.Files.Making
import Jukebox.Proofs.Settings.Neutral
import Jukebox.Proofs.Toml.Codec

set_option autoImplicit false

namespace Jukebox

namespace Host

variable (h : Host) (isGlobal force : Bool)

/-- Whether the file of the home directory is written. -/
def writesGlobal : Bool := isGlobal || Path.same h.home h.cwd

def initPath : Text := settingsIn (if h.writesGlobal isGlobal then h.home else h.cwd)

theorem initTarget_eq : h.initTarget isGlobal = (h.initPath isGlobal, h.writesGlobal isGlobal) := by
  obtain ⟨parent, hparent, hcomponents⟩ := Path.parent?_join h.home isFileName_settingsName
  have hhome : (Path.parent? (settingsIn h.home)).any (Path.same · h.cwd) =
      Path.same h.home h.cwd := by
    rw [settingsIn, hparent, Option.any_some, Path.same, Path.same, hcomponents]
  rw [initTarget]
  simp only [hhome]
  rw [initPath, writesGlobal]
  split <;> simp_all

theorem init_cases :
    ((h.init isGlobal force).succeeded = false ∧ (h.init isGlobal force).files = h.files) ∨
      ((h.init isGlobal force).succeeded ∧
        (force = false → h.files.exists? (h.initPath isGlobal) = false) ∧
        h.files.write (h.initPath isGlobal) (.text (Template.text (h.writesGlobal isGlobal))) =
          .ok (h.init isGlobal force).files) := by
  rw [init, initTarget_eq]
  dsimp only
  split
  · exact .inl ⟨rfl, rfl⟩
  · next hfree =>
    split
    · exact .inl ⟨rfl, rfl⟩
    · next files hwrite =>
      refine .inr ⟨rfl, ?_, hwrite⟩
      rintro rfl
      simpa using hfree

/-- Either nothing succeeds and no file changes, or the template is written to the path, and nowhere
else. Without force, nothing that is there is replaced. Where there was no such file, the settings
of every directory stay what they were, or the error that stands in their place, for comments say
nothing. -/
theorem run_init (musicHome : Option Text) :
    let o := h.run ⟨musicHome, .init isGlobal force⟩
    let target := if isGlobal || Path.same h.home h.cwd then settingsIn h.home else settingsIn h.cwd
    (o.succeeded = false ∧ o.files = h.files ∨ o.succeeded ∧
      o.files.read target = .ok (Template.text (isGlobal || Path.same h.home h.cwd))) ∧
      (∀ key, o.files.entry? key ≠ h.files.entry? key → o.files.locate target = .ok key) ∧
      (force = false → ∀ key e, h.files.entry? key = some e → o.files.entry? key = some e) ∧
      (h.toml.SkipsComments → h.files.exists? target = false → o.succeeded → ∀ d,
        (o.files.load h.toml h.home d).map Config.settings =
          (h.files.load h.toml h.home d).map Config.settings) := by
  intro o target
  have htarget : target = h.initPath isGlobal := by
    rw [initPath, writesGlobal]
    exact (apply_ite settingsIn _ _ _).symm
  have ho : o = h.init isGlobal force := rfl
  rw [htarget, ho]
  rcases h.init_cases isGlobal force with ⟨hfails, hsame⟩ | ⟨hsucceeds, hfree, hwrite⟩
  · rw [hfails, hsame]
    exact ⟨.inl ⟨rfl, rfl⟩, fun key hkey => absurd rfl hkey, fun _ _ _ => id, fun _ _ => nofun⟩
  · obtain ⟨key, hne, -, hfiles, hlocate, hnew⟩ := Files.write_eq_ok hwrite
    refine ⟨.inr ⟨hsucceeds, ?_⟩, fun k hk => ?_, fun hforce k e he => ?_,
      fun htoml hnone _ d => ?_⟩
    · refine Files.read_text hlocate ?_
      rw [hfiles, Files.entry?_set_self _ hne]
      rfl
    · by_cases hkey : k = key
      · exact hkey ▸ hlocate
      · rw [hfiles, Files.entry?_set_of_ne _ hkey] at hk
        exact absurd rfl hk
    · have hkey : k ≠ key := by
        rintro rfl
        rw [hnew (hfree hforce)] at he
        cases he
      rwa [hfiles, Files.entry?_set_of_ne _ hkey]
    · rw [hfiles]
      exact (Files.gains_newFile (hnew hnone) _).load (Template.parse?_text htoml _) h.home d

theorem run_init_inside :
    let around : Entry := .file (.text "player.command = 'vlc'".toList)
    let fs := ((Files.empty.set [['m']] .directory).set [['m'], ['a']] .directory).set
      [['m'], settingsName] around
    let h : Host := ⟨fs, "/h".toList, "/m/a".toList, 0, Programs.standard, Toml.codec⟩
    let o := h.run ⟨none, .init false false⟩
    h.toml.SkipsComments ∧ fs.exists? (settingsIn h.cwd) = false ∧ o.succeeded ∧
      o.files.locate (settingsIn h.cwd) = .ok [['m'], ['a'], settingsName] ∧
      o.files.entry? [['m'], settingsName] = some around ∧
      (o.files.load Toml.codec h.home h.cwd).map Config.settings =
        .ok { Settings.default h.home with command := "vlc".toList } := by
  intro around fs h o
  have hnone : fs.exists? (settingsIn h.cwd) = false := by decide +kernel
  have hok : o.succeeded := by decide +kernel
  have hchanged : o.files.entry? [['m'], ['a'], settingsName] ≠
      fs.entry? [['m'], ['a'], settingsName] := by decide +kernel
  have haround : fs.entry? [['m'], settingsName] = some around := by decide +kernel
  have hbefore : (fs.load Toml.codec h.home h.cwd).map Config.settings =
      .ok { Settings.default h.home with command := "vlc".toList } := by decide +kernel
  obtain ⟨-, hframe, hkept, hload⟩ := h.run_init false false none
  exact ⟨Toml.codec_skipsComments, hnone, hok, hframe _ hchanged, hkept rfl _ _ haround,
    (hload Toml.codec_skipsComments hnone hok h.cwd).trans hbefore⟩

end Host

end Jukebox
