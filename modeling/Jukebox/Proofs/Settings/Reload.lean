import Mathlib.Data.List.Permutation
import Jukebox.Proofs.Toml.Codec
import Jukebox.Settings.Discovery

set_option autoImplicit false

namespace Jukebox

open Toml

namespace Settings

def raw (s : Settings) : RawSettings where
  root := none
  library := some ⟨some s.musicHome, some s.database⟩
  player := some ⟨some s.command, some s.args⟩

theorem texts?_array (ts : List Text) : RawSettings.texts? (.array (ts.map .text)) = some ts := by
  rw [RawSettings.texts?]
  induction ts with
  | nil => rfl
  | cons t ts ih =>
    rw [List.map_cons, List.mapM_cons, ih]
    rfl

theorem fitAll_texts (ts : List Text) : Value.fitAll (ts.map .text) = true := by
  induction ts with
  | nil => rfl
  | cons t ts ih => rw [List.map_cons, Value.fitAll, ih]; rfl

theorem isPlain_table (s : Settings) : s.table.IsPlain := by
  have hsections : PlainKeys ["library".toList, "player".toList] := ⟨by decide, by decide⟩
  have hlibrary : PlainKeys ["music_home".toList, "database".toList] := ⟨by decide, by decide⟩
  have hplayer : PlainKeys ["command".toList, "args".toList] := ⟨by decide, by decide⟩
  refine ⟨hsections, fun e he => ?_⟩
  rcases List.mem_pair.1 he with rfl | rfl
  · refine .mk hlibrary fun e he => ?_
    rcases List.mem_pair.1 he with rfl | rfl
    · exact .text _
    · exact .text _
  · refine .mk hplayer fun e he => ?_
    rcases List.mem_pair.1 he with rfl | rfl
    · exact .text _
    · exact .texts _

section Reordered

variable {musicHome database command : Text} {args : List Text} {entries : List (Text × Value)}

theorem library?_reordered
    (h : [("music_home".toList, .text musicHome),
      ("database".toList, .text database)].Perm entries) :
    RawSettings.library? (.table entries) = some ⟨some musicHome, some database⟩ := by
  rcases List.pair_perm.1 h with rfl | rfl <;> rfl

theorem player?_reordered
    (h : [("command".toList, .text command),
      ("args".toList, .array (args.map .text))].Perm entries) :
    RawSettings.player? (.table entries) = some ⟨some command, some args⟩ := by
  have hfits : Value.fitEntries entries = true := by
    rcases List.pair_perm.1 h with rfl | rfl <;> simp [Value.fitEntries, Value.fits, fitAll_texts]
  have hsection : RawSettings.section? ["command", "args"] (.table entries) =
      some [some (.text command), some (.array (args.map .text))] := by
    rw [RawSettings.section?, if_pos hfits]
    rcases List.pair_perm.1 h with rfl | rfl <;> rfl
  rw [RawSettings.player?, hsection]
  simp [RawSettings.optional?, Value.text?, texts?_array]

end Reordered

/-- A file gives the settings in whatever order its keys stand. -/
theorem ofTable?_reordered {s : Settings} {t : Table} (h : s.table.Reordered t) :
    RawSettings.ofTable? t = some s.raw := by
  obtain ⟨entries, hall, hperm⟩ := h
  obtain ⟨⟨_, library⟩, back, ⟨rfl, ⟨hlibrary⟩⟩, hback, rfl⟩ := List.forall₂_cons_left_iff.1 hall
  obtain ⟨⟨_, player⟩, none, ⟨rfl, ⟨hplayer⟩⟩, hnone, rfl⟩ := List.forall₂_cons_left_iff.1 hback
  obtain rfl := List.forall₂_nil_left_iff.1 hnone
  have hlibrary := library?_reordered hlibrary
  have hplayer := player?_reordered hplayer
  obtain ⟨entries⟩ := t
  rcases List.pair_perm.1 hperm with rfl | rfl <;>
    simp [RawSettings.ofTable?, RawSettings.sections, RawSettings.optional?, Table.get?,
      List.lookup_cons, Value.fitEntries, hlibrary, hplayer, raw]

theorem exists_render {toml : Codec} (h : toml.RoundTrips) (s : Settings) :
    ∃ t, s.render toml = .ok t ∧ RawSettings.parse? toml t = some s.raw := by
  obtain ⟨t, hwrite, read, hread, hsame⟩ := h s.table s.isPlain_table
  refine ⟨t, ?_, ?_⟩
  · rw [render, hwrite]
  · rw [RawSettings.parse?, hread, Option.bind_some, ofTable?_reordered hsame]

end Settings

theorem Path.resolve_of_isAbsolute (home base : Text) {p : Text} (h : isAbsolute p) :
    resolve home base p = p := by
  have hexpand : expandHome home p = p := by
    unfold expandHome
    split
    · cases h
    · cases h
    · rfl
  rw [resolve, hexpand, if_pos h]

namespace Config

theorem overlay_raw (home path : Text) (s t : Settings) (h : Path.isAbsolute s.musicHome) :
    SettingsFile.overlay home ⟨path, s.raw⟩ t = s := by
  have hhome := Path.resolve_of_isAbsolute home (SettingsFile.directory ⟨path, s.raw⟩) h
  change (⟨Path.resolve home (SettingsFile.directory ⟨path, s.raw⟩) s.musicHome, s.database,
    s.command, s.args⟩ : Settings) = s
  rw [hhome]

/-- Settings with an absolute music home are written as a file that gives all of them and nothing
else, and loading this file from anywhere gives them back, to be written as the same text. -/
theorem loadFiles_render {toml : Codec} (htoml : toml.RoundTrips) (c : Config)
    (h : Path.isAbsolute c.settings.musicHome) :
    ∃ t, c.settings.render toml = .ok t ∧ RawSettings.parse? toml t = some c.settings.raw ∧
      ∀ (fs : Files) (home path : Text), fs.read path = .ok t →
        ∃ c', fs.loadFiles toml home [path] = .ok c' ∧ c'.settings = c.settings ∧
          c'.settings.render toml = .ok t := by
  obtain ⟨t, hrender, hparse⟩ := Settings.exists_render htoml c.settings
  refine ⟨t, hrender, hparse, fun fs home path hread => ?_⟩
  have hfile : fs.readSettings toml path = .ok ⟨path, c.settings.raw⟩ := by
    rw [Files.readSettings, hread]
    simp only [hparse]
  refine ⟨merge home [⟨path, c.settings.raw⟩], ?_, ?_⟩
  · rw [Files.loadFiles, List.mapM_cons, hfile]
    rfl
  · have hsettings : (merge home [⟨path, c.settings.raw⟩]).settings = c.settings :=
      overlay_raw home path c.settings (.default home) h
    exact ⟨hsettings, (congrArg (Settings.render toml) hsettings).trans hrender⟩

theorem loadFiles_render_quotes :
    let s : Settings := ⟨"/a\"\"\"'''\n\\b".toList, "\x00'".toList, [], ["\r\n".toList, ['"']]⟩
    codec.RoundTrips ∧ Path.isAbsolute s.musicHome ∧
      ∃ t, s.render codec = .ok t ∧ RawSettings.parse? codec t = some s.raw ∧
        let fs := Files.empty.set [['c']] (.file (.text t))
        fs.read ['/', 'c'] = .ok t ∧
          ∃ c, fs.loadFiles codec ['/'] [['/', 'c']] = .ok c ∧ c.settings = s ∧
            c.settings.render codec = .ok t := by
  intro s
  have hhome : Path.isAbsolute s.musicHome := by decide
  obtain ⟨t, hrender, hparse, hloads⟩ := loadFiles_render codec_roundTrips ⟨s, none, []⟩ hhome
  have hread : (Files.empty.set [['c']] (.file (.text t))).read ['/', 'c'] = .ok t := rfl
  exact ⟨codec_roundTrips, hhome, t, hrender, hparse, hread, hloads _ ['/'] ['/', 'c'] hread⟩

end Config

end Jukebox
