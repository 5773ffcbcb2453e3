import Jukebox.Proofs.Settings.Search
import Jukebox.Toml.Writer

/-!
Which files govern a directory. What a search lists is told by the directories on the way up and by
the global file, and what lies beyond a root that it meets changes nothing.
-/

set_option autoImplicit false

namespace Jukebox

namespace Path

theorem ne_up_of_mem_names {p n : Text} (hp : Component.up ∉ components p)
    (hn : n ∈ (shape p).names) : n ≠ ['.', '.'] := by
  rintro rfl
  exact hp (List.mem_append_right _ (List.mem_map_of_mem hn))

end Path

namespace Files

variable {toml : Toml.Codec} {fs gs : Files} {path : Text}

structure Agree (fs gs : Files) (path : Text) : Prop where
  locate : ∀ key, gs.locate path = .ok key ↔ fs.locate path = .ok key
  entry : ∀ key, fs.locate path = .ok key → gs.entry? key = fs.entry? key

namespace Agree

theorem isFile (h : Agree fs gs path) : gs.isFile path = fs.isFile path := by
  rw [Bool.eq_iff_iff, isFile_iff, isFile_iff]
  refine exists₂_congr fun key c => ?_
  rw [h.locate]
  exact and_congr_right fun hl => by rw [h.entry key hl]

theorem read (h : Agree fs gs path) (hfile : fs.isFile path) : gs.read path = fs.read path := by
  obtain ⟨key, c, hl, -⟩ := isFile_iff.1 hfile
  exact read_congr hl ((h.locate key).2 hl) (h.entry key hl)

theorem isRootSettings (h : Agree fs gs path) (hfile : fs.isFile path) :
    gs.isRootSettings toml path = fs.isRootSettings toml path := by
  rw [Files.isRootSettings, h.read hfile, Files.isRootSettings]

theorem readSettings (h : Agree fs gs path) (hfile : fs.isFile path) :
    gs.readSettings toml path = fs.readSettings toml path := by
  rw [Files.readSettings, h.read hfile, Files.readSettings]

end Agree

theorem settingsFiles_congr {ds : List Text} (h : ∀ d ∈ ds, Agree fs gs (settingsIn d)) :
    gs.settingsFiles ds = fs.settingsFiles ds := by
  refine List.filter_congr fun path hpath => ?_
  obtain ⟨d, hd, rfl⟩ := List.mem_map.1 hpath
  exact (h d hd).isFile

theorem unrooted_congr {ds : List Text} (h : ∀ d ∈ ds, Agree fs gs (settingsIn d))
    (hnone : ∀ path ∈ fs.settingsFiles ds, fs.isRootSettings toml path = false) :
    ∀ path ∈ gs.settingsFiles ds, gs.isRootSettings toml path = false := by
  rw [settingsFiles_congr h]
  intro path hpath
  obtain ⟨hfile, d, hd, rfl⟩ := mem_settingsFiles.1 hpath
  rw [(h d hd).isRootSettings hfile]
  exact hnone _ hpath

theorem loadFiles_congr (home : Text) {paths : List Text}
    (h : ∀ path ∈ paths, gs.readSettings toml path = fs.readSettings toml path) :
    gs.loadFiles toml home paths = fs.loadFiles toml home paths := by
  have hread : paths.mapM (gs.readSettings toml) = paths.mapM (fs.readSettings toml) := by
    induction paths with
    | nil => rfl
    | cons path paths ih =>
      obtain ⟨hpath, hpaths⟩ := List.forall_mem_cons.1 h
      rw [List.mapM_cons, List.mapM_cons, hpath, ih hpaths]
  rw [loadFiles, hread, loadFiles]

def settingsKey (d : Text) : List Text := (Path.shape d).names ++ [settingsName]

theorem locate_settingsIn {d : Text} (hd : Path.Component.up ∉ Path.components d)
    {key : List Text} : fs.locate (settingsIn d) = .ok key ↔
      (checkPath (settingsIn d) = .ok () ∧ (Path.shape d).lead = .root) ∧
        key = settingsKey d ∧ fs.Reached (settingsKey d) := by
  obtain ⟨front, hshape, -, hnames⟩ := Path.shape_join d isFileName_settingsName
  have hidle : ∀ n ∈ settingsKey d, Path.idle n = false := by
    refine List.forall_mem_append.2 ⟨fun n hn => ?_, ?_⟩
    · simpa using (List.mem_filter.1 hn).2
    · exact List.forall_mem_singleton.2 isFileName_settingsName.idle
  have hup : ∀ n ∈ settingsKey d, n ≠ ['.', '.'] :=
    List.forall_mem_append.2 ⟨fun n => Path.ne_up_of_mem_names hd,
      List.forall_mem_singleton.2 isFileName_settingsName.up⟩
  have hfollow := follow_eq_ok_iff hidle hup (reached_nil fs) (k := key)
  rw [List.nil_append] at hfollow
  rw [locate_eq_ok, settingsIn, hshape, follow_names, hnames, and_assoc]
  exact and_congr_right fun _ => and_congr_right fun _ => hfollow

theorem isFile_settingsIn {d : Text} (hd : Path.Component.up ∉ Path.components d)
    (hcheck : checkPath (settingsIn d) = .ok ()) (hlead : (Path.shape d).lead = .root)
    (hr : fs.Reached (settingsKey d)) (hno : fs.hasDirectory (settingsKey d) = false) :
    fs.locate (settingsIn d) = .ok (settingsKey d) ∧ fs.isFile (settingsIn d) := by
  have hl : fs.locate (settingsIn d) = .ok (settingsKey d) :=
    (locate_settingsIn hd).2 ⟨⟨hcheck, hlead⟩, rfl, hr⟩
  refine ⟨hl, ?_⟩
  obtain ⟨entry, hentry⟩ := Option.isSome_iff_exists.1 hr.entry
  cases entry with
  | directory =>
    rw [hasDirectory_iff.2 hentry] at hno
    cases hno
  | file c => exact isFile_iff.2 ⟨_, c, hl, hentry⟩

/-- The settings files of directories on the way up, one further than the other, are not one. -/
theorem settingsKey_ne {cwd d e a : Text} (habs : Path.isAbsolute cwd)
    (hd : d ∈ cwd :: Path.parents cwd) (he : e ∈ cwd :: Path.parents cwd)
    (ha : a ∈ Path.parents d)
    (hlonger : (Path.components d).length ≤ (Path.components e).length) :
    settingsKey e ≠ settingsKey a := by
  intro hkey
  have hnames : (Path.shape e).names = (Path.shape a).names := List.append_cancel_right hkey
  have habse := Path.isAbsolute_of_mem_chain habs he
  have habsa := Path.isAbsolute_of_mem_parents (Path.isAbsolute_of_mem_chain habs hd) ha
  rw [Path.components_of_root habse, hnames, ← Path.components_of_root habsa] at hlonger
  exact absurd (Path.components_of_mem_parents ha).2 (Nat.not_lt.2 hlonger)

/-- What may become of a place without being seen from a directory whose search ends in `d`. It is
that of a settings file further up, or of the global file where no file of the list is there too. -/
structure Unseen (toml : Toml.Codec) (fs gs : Files) (home cwd d : Text)
    (key : List Text) : Prop where
  before : fs.hasDirectory key = false
  after : gs.hasDirectory key = false
  place : ∃ hs ∈ [fs, gs], (∃ e ∈ Path.parents d, hs.locate (settingsIn e) = .ok key) ∨
    hs.locate (settingsIn home) = .ok key ∧
      ∀ path ∈ hs.discover toml home cwd, hs.locate path ≠ .ok key

section Unseen

variable {home cwd d : Text}
  (h : ∀ key, gs.entry? key ≠ fs.entry? key → Unseen toml fs gs home cwd d key)
include h

theorem hasDirectory_unseen (key : List Text) : gs.hasDirectory key = fs.hasDirectory key := by
  by_cases he : gs.entry? key = fs.entry? key
  · rw [hasDirectory, he, hasDirectory]
  · rw [(h key he).before, (h key he).after]

theorem reached_unseen {key : List Text} (he : gs.entry? key = fs.entry? key) :
    gs.Reached key ↔ fs.Reached key := by
  have hdirectory := hasDirectory_unseen h
  constructor
  · exact fun hr => ⟨he ▸ hr.entry, fun front n hn => hdirectory front ▸ hr.within front n hn⟩
  · exact fun hr => ⟨he ▸ hr.entry,
      fun front n hn => (hdirectory front).symm ▸ hr.within front n hn⟩

theorem agree_of_entry {e : Text} (hup : Path.Component.up ∉ Path.components e)
    (he : gs.entry? (settingsKey e) = fs.entry? (settingsKey e)) : Agree fs gs (settingsIn e) := by
  refine ⟨fun key => ?_, fun key hl => ?_⟩
  · rw [locate_settingsIn hup, locate_settingsIn hup, reached_unseen h he]
  · rw [((locate_settingsIn hup).1 hl).2.1, he]

/-- A settings file agrees where those of the directories before it do. It is none further up, and
as the global file it would be listed itself. -/
theorem agree_step {e : Text} {front back : List Text} (habs : Path.isAbsolute cwd)
    (hup : Path.Component.up ∉ Path.components cwd) (hd : d ∈ cwd :: Path.parents cwd)
    (hsplit : cwd :: Path.parents cwd = front ++ e :: back)
    (hlonger : (Path.components d).length ≤ (Path.components e).length)
    (hfront : ∀ r ∈ front, Agree fs gs (settingsIn r))
    (hnone : ∀ path ∈ fs.settingsFiles front, fs.isRootSettings toml path = false) :
    Agree fs gs (settingsIn e) := by
  have he : e ∈ cwd :: Path.parents cwd := hsplit ▸ List.mem_append_cons_self
  have hupe : Path.Component.up ∉ Path.components e := fun hm =>
    hup ((Path.components_of_mem_chain he).subset hm)
  have hlead : (Path.shape e).lead = .root :=
    Path.isAbsolute_iff_lead.1 (Path.isAbsolute_of_mem_chain habs he)
  by_cases hentry : gs.entry? (settingsKey e) = fs.entry? (settingsKey e)
  · exact agree_of_entry h hupe hentry
  obtain ⟨hbefore, hafter, hs, hmem, ⟨a, ha, hl⟩ | ⟨hglobal, hnot⟩⟩ := h _ hentry
  · have hda := (Path.components_of_mem_parents ha).1.trans (Path.components_of_mem_chain hd)
    have hkey := ((locate_settingsIn fun hm => hup (hda.subset hm)).1 hl).2.1
    exact absurd hkey (settingsKey_ne habs hd he ha hlonger)
  · by_cases hcheck : checkPath (settingsIn e) = .ok ()
    · have hseen : hs.hasDirectory (settingsKey e) = false ∧
          ∀ path ∈ hs.settingsFiles front, hs.isRootSettings toml path = false := by
        rcases List.mem_pair.1 hmem with rfl | rfl
        · exact ⟨hbefore, hnone⟩
        · exact ⟨hafter, unrooted_congr hfront hnone⟩
      have hreached : hs.Reached (settingsKey e) :=
        (reached_nil hs).follow (locate_eq_ok.1 hglobal).2.2
      obtain ⟨hl, hfile⟩ := isFile_settingsIn hupe hcheck hlead hreached hseen.1
      exact absurd hl (hnot _ (mem_discover_of_front hsplit hseen.2 hfile))
    · exact ⟨fun key => iff_of_false (fun hl => hcheck (locate_eq_ok.1 hl).1)
        fun hl => hcheck (locate_eq_ok.1 hl).1, fun key hl => absurd (locate_eq_ok.1 hl).1 hcheck⟩

theorem agree_front {front back : List Text} (habs : Path.isAbsolute cwd)
    (hup : Path.Component.up ∉ Path.components cwd) (hd : d ∈ cwd :: Path.parents cwd)
    (hsplit : cwd :: Path.parents cwd = front ++ back)
    (hlonger : ∀ e ∈ front, (Path.components d).length ≤ (Path.components e).length)
    (hnone : ∀ path ∈ fs.settingsFiles front, fs.isRootSettings toml path = false) :
    ∀ e ∈ front, Agree fs gs (settingsIn e) := by
  induction front using List.reverseRecOn generalizing back with
  | nil => nofun
  | append_singleton front e ih =>
    rw [List.append_assoc, List.singleton_append] at hsplit
    have hnone : ∀ path ∈ fs.settingsFiles front, fs.isRootSettings toml path = false := by
      intro path hpath
      obtain ⟨hfile, r, hr, rfl⟩ := mem_settingsFiles.1 hpath
      exact hnone _ (mem_settingsFiles.2 ⟨hfile, r, List.mem_append_left _ hr, rfl⟩)
    obtain ⟨hlonger, hlast⟩ := List.forall_mem_append.1 hlonger
    have hfront := ih hsplit hlonger hnone
    exact List.forall_mem_append.2 ⟨hfront, List.forall_mem_singleton.2
      (agree_step h habs hup hd hsplit (hlast e (List.mem_singleton_self e)) hfront hnone)⟩

theorem load_unseen {front back : List Text} (habs : Path.isAbsolute cwd)
    (hup : Path.Component.up ∉ Path.components cwd)
    (hsplit : cwd :: Path.parents cwd = front ++ d :: back)
    (hnone : ∀ path ∈ fs.settingsFiles front, fs.isRootSettings toml path = false)
    (hfile : fs.isFile (settingsIn d)) (hroot : fs.isRootSettings toml (settingsIn d)) :
    gs.discover toml home cwd = fs.discover toml home cwd ∧
      gs.load toml home cwd = fs.load toml home cwd := by
  have hd : d ∈ cwd :: Path.parents cwd := hsplit ▸ List.mem_append_cons_self
  have hlonger : ∀ e ∈ front, (Path.components d).length ≤ (Path.components e).length := fun e he =>
    Nat.le_of_lt (Path.components_of_mem_parents ((Path.parents_of_split hsplit).2 e he)).2
  have hfront := agree_front h habs hup hd hsplit hlonger hnone
  have hlast := agree_step h habs hup hd hsplit (Nat.le_refl _) hfront hnone
  have hnone' := unrooted_congr hfront hnone
  have hdiscover : gs.discover toml home cwd = fs.discover toml home cwd := by
    rw [discover_of_root hsplit hnone hfile hroot,
      discover_of_root hsplit hnone' (hlast.isFile ▸ hfile) (hlast.isRootSettings hfile ▸ hroot),
      settingsFiles_congr hfront]
  refine ⟨hdiscover, ?_⟩
  have hread : ∀ path ∈ fs.discover toml home cwd,
      gs.readSettings toml path = fs.readSettings toml path := by
    rw [discover_of_root hsplit hnone hfile hroot]
    refine List.forall_mem_append.2 ⟨fun path hpath => ?_, ?_⟩
    · obtain ⟨hfile, r, hr, rfl⟩ := mem_settingsFiles.1 hpath
      exact (hfront r hr).readSettings hfile
    · exact List.forall_mem_singleton.2 (hlast.readSettings hfile)
  rw [load, hdiscover, loadFiles_congr home hread, load]

end Unseen

theorem isRootSettings_of_error {e : ConfigError} (h : fs.readSettings toml path = .error e) :
    fs.isRootSettings toml path = false := by
  rw [Bool.eq_false_iff]
  intro hroot
  obtain ⟨t, raw, hread, hparse, -⟩ := isRootSettings_iff.1 hroot
  rw [readSettings, hread] at h
  simp only [hparse] at h
  cases h

/-- The settings files that govern a directory are those on the way from it up to the root, cut
after the first that calls itself a root, and without a root the global file, unless it is one of
them. None is listed twice, a root comes last, and a file that cannot be read or understood ends
nothing. Where the list ends in a root on the way and the directory is written without steps up, the
settings in force do not depend on what is further up, nor on a global file that is none of those
listed. -/
theorem discover_governs (toml : Toml.Codec) (fs : Files) (home : Text) {cwd : Text}
    (habs : Path.isAbsolute cwd) :
    let dirs := cwd :: Path.parents cwd
    let found := fs.settingsFiles dirs
    let walk := found.take (found.findIdx (fs.isRootSettings toml) + 1)
    let listed := fs.discover toml home cwd
    dirs.map Path.components = (Path.components cwd).inits.tail.reverse ∧
    (∀ path, fs.isRootSettings toml path ↔ ∃ t raw, fs.read path = .ok t ∧
      RawSettings.parse? toml t = some raw ∧ raw.root = some true) ∧
    listed = walk ++ (if (∀ p ∈ found, fs.isRootSettings toml p = false) ∧
      fs.isFile (settingsIn home) ∧
        ∀ p ∈ walk, Path.components p ≠ Path.components (settingsIn home) then [settingsIn home]
      else []) ∧
    listed.Pairwise (fun p q => Path.components p ≠ Path.components q) ∧
    (∀ front path back, listed = front ++ path :: back → fs.isRootSettings toml path → back = []) ∧
    (∀ path e, fs.readSettings toml path = .error e → fs.isRootSettings toml path = false) ∧
    (∀ front d back, dirs = front ++ d :: back →
      (∀ path ∈ fs.settingsFiles front, fs.isRootSettings toml path = false) →
        fs.isFile (settingsIn d) → settingsIn d ∈ listed) ∧
    (Path.Component.up ∉ Path.components cwd → ∀ d ∈ dirs,
      listed.getLast? = some (settingsIn d) → fs.isRootSettings toml (settingsIn d) →
        ∀ gs : Files, (∀ key, gs.entry? key ≠ fs.entry? key → Unseen toml fs gs home cwd d key) →
          gs.discover toml home cwd = listed ∧ gs.load toml home cwd = fs.load toml home cwd) := by
  intro dirs found walk listed
  refine ⟨Path.components_parents habs, fun path => isRootSettings_iff,
    fs.discover_eq_walk home cwd, fs.discover_pairwise home cwd,
    fun front path back => back_eq_nil_of_isRootSettings, fun path e => isRootSettings_of_error,
    fun front d back => mem_discover_of_front, ?_⟩
  intro hup d hd hlast hroot gs h
  have hfile : fs.isFile (settingsIn d) := isFile_of_mem_discover (List.mem_of_getLast? hlast)
  obtain ⟨front, r, back, hsplit, hnone, hrfile, hrroot⟩ := exists_first_root hd hfile hroot
  have hr : r ∈ dirs := hsplit ▸ List.mem_append_cons_self
  have hsame : settingsIn r = settingsIn d := by
    have hlisted : listed = fs.settingsFiles front ++ [settingsIn r] :=
      discover_of_root hsplit hnone hrfile hrroot
    rw [hlisted, List.getLast?_concat] at hlast
    exact Option.some.inj hlast
  obtain rfl : r = d := by
    have hcomponents := congrArg Path.components hsame
    rw [components_settingsIn, components_settingsIn] at hcomponents
    exact Path.eq_of_components_eq hr hd (List.append_cancel_right hcomponents)
  exact load_unseen h habs hup hsplit hnone hfile hroot

/-- A root on the way, with a file further up and a global file beside it. The one is changed, and
the other made into one that cannot be understood. -/
theorem discover_governs_beyond_root :
    let home := "/h".toList
    let cwd := "/a/b/c".toList
    let above := ["a".toList, settingsName]
    let global := ["h".toList, settingsName]
    let fs : Files := ⟨[(["a".toList], .directory), (["a".toList, "b".toList], .directory),
      (["a".toList, "b".toList, "c".toList], .directory), (["h".toList], .directory),
      (["a".toList, "b".toList, settingsName], .file (.text "root = true".toList)),
      (above, .file (.text [])), (global, .file (.text []))]⟩
    let gs := (fs.set above (.file (.text "root = true".toList))).set global (.file (.text ['[']))
    Path.isAbsolute cwd ∧ fs.discover Toml.codec home cwd = ["/a/b/.cantrip.toml".toList] ∧
      gs.discover Toml.codec home cwd = fs.discover Toml.codec home cwd ∧
      gs.load Toml.codec home cwd = fs.load Toml.codec home cwd ∧
      gs.readSettings Toml.codec (settingsIn home) = .error (.malformed (settingsIn home)) ∧
      gs.isRootSettings Toml.codec (settingsIn home) = false := by
  intro home cwd above global fs gs
  have hlisted : fs.discover Toml.codec home cwd =
      ["/a/b/.cantrip.toml".toList] := by decide +kernel
  have hroot : fs.isRootSettings Toml.codec (settingsIn "/a/b".toList) := by decide +kernel
  have hmalformed : gs.readSettings Toml.codec (settingsIn home) =
      .error (.malformed (settingsIn home)) := by
    decide +kernel
  have hchanged : ∀ key, gs.entry? key ≠ fs.entry? key →
      Unseen Toml.codec fs gs home cwd "/a/b".toList key := by
    intro key hkey
    by_cases hglobal : key = global
    · subst hglobal
      exact ⟨by decide +kernel, by decide +kernel, fs, List.mem_cons_self,
        .inr ⟨by decide +kernel, by decide +kernel⟩⟩
    · by_cases habove : key = above
      · subst habove
        exact ⟨by decide +kernel, by decide +kernel, fs, List.mem_cons_self,
          .inl ⟨"/a".toList, by decide +kernel, by decide +kernel⟩⟩
      · rw [entry?_set_of_ne _ hglobal, entry?_set_of_ne _ habove] at hkey
        exact absurd rfl hkey
  have habs : Path.isAbsolute cwd := by decide
  obtain ⟨-, -, -, -, -, -, -, hbeyond⟩ := discover_governs Toml.codec fs home habs
  obtain ⟨hdiscover, hload⟩ := hbeyond (by decide +kernel) "/a/b".toList (by decide +kernel)
    (by rw [hlisted]; decide +kernel) hroot gs hchanged
  obtain ⟨-, -, -, -, -, herror, -⟩ := discover_governs Toml.codec gs home habs
  exact ⟨habs, hlisted, hdiscover, hload, hmalformed, herror _ _ hmalformed⟩

end Files

end Jukebox
