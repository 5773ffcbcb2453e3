import Jukebox.Proofs.Library.History
import Jukebox.Proofs.Plan.Limits
import Jukebox.Proofs.Library.Arranged

/-!
Where the tracks of a library lead. A track is kept under a path without the home directory, and
selected under that path as seen from there: this is the path under which it was added, and no other
file is taken for it.
-/

set_option autoImplicit false

namespace Jukebox

open Jukebox.Path

namespace Library

variable {home : OsText} {ts : List Track}

theorem storedIn_eq_of_added {i j id : Nat} {t u : Track} (ht : FirstAt home ts i t)
    (hu : FirstAt home ts j u) (hi : (answers home ts)[i]? = some (.added id))
    (hj : (answers home ts)[j]? = some (.added id)) : storedIn home t = storedIn home u := by
  have hrec := records home ts
  obtain ⟨r, hr, hri, hrt⟩ := hrec.first i t ht
  obtain ⟨s, hs, hsj, hsu⟩ := hrec.first j u hu
  have hid : r.id = s.id := by
    have hr := Addition.added.inj (Option.some.inj (hri.symm.trans hi))
    have hs := Addition.added.inj (Option.some.inj (hsj.symm.trans hj))
    exact hr.trans hs.symm
  have hrow := hrec.consistent.tracks.filter_id hr
  rw [hid, hrec.consistent.tracks.filter_id hs, List.singleton_inj] at hrow
  rw [← hrt.path, ← hsu.path, hrow]

/-- A track that is taken for one that was there is kept under the path of that one. -/
theorem storedIn_eq_of_existing {i j id : Nat} {t u : Track} (hget : ts[i]? = some t)
    (hgetu : ts[j]? = some u) (hi : (answers home ts)[i]? = some (.existing id))
    (hj : (answers home ts)[j]? = some (.added id)) : storedIn home t = storedIn home u := by
  have hu : FirstAt home ts j u := firstAt_iff_added.2 ⟨hgetu, id, hj⟩
  rcases firstAt_or_taken home hget with ht | htaken
  · rw [answer_new ht] at hi
    cases hi
  · obtain ⟨k, v, id', -, hv, hvt, hk, hexisting, -⟩ := answer_taken hget htaken
    rw [hi] at hexisting
    cases hexisting
    exact hvt.symm.trans (storedIn_eq_of_added hv hu hk hj)

theorem exists_row_of_mem_run {lib : Library} {seed : Nat} {ps : List Plan} {paths : List OsText}
    (h : lib.run seed ps = .ok paths) {path : OsText} (hpath : path ∈ paths) :
    ∃ r ∈ lib.catalogue.tracks, path = lib.locate r.path := by
  obtain ⟨-, rfl⟩ := run_eq_ok_iff.1 h
  obtain ⟨found, hfound, hpath⟩ := List.mem_flatten.1 hpath
  obtain ⟨p, -, rfl⟩ := List.mem_map.1 hfound
  obtain ⟨r, hr, rfl⟩ := List.mem_map.1 hpath
  have hr := (lib.catalogue.found_perm_finds seed p).mem_iff.1 hr
  exact ⟨r, (List.mem_filter.1 hr).1, rfl⟩

theorem exists_row_of_mem_select {lib : Library} {seed : Nat} {text : Text} {paths : List OsText}
    (h : lib.select seed text = .ok paths) {path : OsText} (hpath : path ∈ paths) :
    ∃ r ∈ lib.catalogue.tracks, path = lib.locate r.path := by
  rw [select] at h
  cases hplans : plans text with
  | error e =>
    rw [hplans] at h
    cases h
  | ok ps =>
    rw [hplans] at h
    exact exists_row_of_mem_run h hpath

/-- An absolute path is kept so that it leads back, as seen from the home directory, to where it
led, just if it is kept whole, as every path is that is a text. It is kept as a relative one just if
it lies in that directory, however the directory is written. What is selected is where the tracks
lead that were added, and two tracks at absolute paths that are kept whole are one to the library
only if the paths are. -/
theorem stored_leads_back (home : OsText) (ts : List Track) :
    let lib := after home ts
    (∀ p : OsText, isAbsolute p →
      (components (lib.locate (lib.storedPath p)) = components p ↔ lib.KeepsWhole p) ∧
      (p.IsText → lib.KeepsWhole p) ∧
      (isAbsolute (lib.storedPath p) = false ↔ home ≠ [] ∧ components home <+: components p) ∧
      ∀ other, components other = components home →
        (new other).storedPath p = lib.storedPath p) ∧
    (∀ seed text paths, lib.select seed text = .ok paths → ∀ path ∈ paths, ∃ i t,
      FirstAt home ts i t ∧ path = lib.locate (lib.storedPath t.path) ∧
      (isAbsolute t.path → (components path = components t.path ↔ lib.KeepsWhole t.path))) ∧
    (∀ (i j id : Nat) (t u : Track), ts[i]? = some t → ts[j]? = some u →
      (answers home ts)[i]? = some (.existing id) → (answers home ts)[j]? = some (.added id) →
      isAbsolute t.path → isAbsolute u.path → lib.KeepsWhole t.path → lib.KeepsWhole u.path →
      components t.path = components u.path) ∧
    ∀ cwd p : OsText, isAbsolute cwd → isAbsolute (join cwd p) := by
  intro lib
  have hrec := records home ts
  have hhome : lib.home = home := hrec.home_eq
  refine ⟨fun p hp => ⟨components_locate_iff hp, keepsWhole_of_isText, ?_, fun other hother => ?_⟩,
    ?_, ?_, fun cwd p hcwd => isAbsolute_join hcwd p⟩
  · rw [← hhome]
    exact storedPath_relative_iff hp
  · rw [storedPath_congr hother, storedPath, storedPath, remainder, remainder, hhome]
    rfl
  · intro seed text paths hselect path hpath
    obtain ⟨r, hr, rfl⟩ := exists_row_of_mem_select hselect hpath
    obtain ⟨i, t, ht, hrow, -⟩ := hrec.row r hr
    have hstored : r.path = lib.storedPath t.path := hrow.trans (hrec.storedPath t).symm
    rw [hstored]
    exact ⟨i, t, ht, rfl, components_locate_iff⟩
  · intro i j id t u ht hu hi hj habst habsu hkeept hkeepu
    have hsame : lib.storedPath t.path = lib.storedPath u.path := by
      rw [hrec.storedPath, hrec.storedPath, storedIn_eq_of_existing ht hu hi hj]
    calc components t.path = components (lib.locate (lib.storedPath t.path)) :=
          ((components_locate_iff habst).2 hkeept).symm
      _ = components (lib.locate (lib.storedPath u.path)) := by rw [hsame]
      _ = components u.path := (components_locate_iff habsu).2 hkeepu

theorem stored_leads_back_doubled :
    let home := Text.utf8 "/m/".toList
    let first : Track := ⟨Text.utf8 "/m//a".toList, ['a'], none, none, []⟩
    let second : Track := ⟨Text.utf8 "/m/./a/".toList, ['b'], none, none, []⟩
    let lib := after home [first, second]
    isAbsolute first.path ∧ isAbsolute second.path ∧ first.path.IsText ∧
      components (lib.locate (lib.storedPath first.path)) = components first.path ∧
      isAbsolute (lib.storedPath first.path) = false ∧
      components (Text.utf8 "/m".toList) = components home ∧
      (new (Text.utf8 "/m".toList)).storedPath first.path = lib.storedPath first.path ∧
      lib.select 0 ['a'] = .ok [Text.utf8 "/m/a".toList] ∧
      (∃ i t, FirstAt home [first, second] i t ∧
        Text.utf8 "/m/a".toList = lib.locate (lib.storedPath t.path)) ∧
      answers home [first, second] = [.added 1, .existing 1] ∧
      components second.path = components first.path ∧
      isAbsolute (join home (Text.utf8 ['a'])) := by
  intro home first second lib
  have hfirst : isAbsolute first.path := by decide
  have hsecond : isAbsolute second.path := by decide
  have hother : components (Text.utf8 "/m".toList) = components home := by decide
  have hinside : home ≠ [] ∧ components home <+: components first.path := by decide
  have hselect : lib.select 0 ['a'] = .ok [Text.utf8 "/m/a".toList] := by decide +kernel
  have hanswers : answers home [first, second] = [.added 1, .existing 1] := by decide +kernel
  obtain ⟨hpaths, hselected, htaken, hcwd⟩ := stored_leads_back home [first, second]
  obtain ⟨hback, hwhole, hrelative, hspelling⟩ := hpaths first.path hfirst
  have hkeeps := hwhole (OsText.isText_utf8 _)
  have hkeeps' := (hpaths second.path hsecond).2.1 (OsText.isText_utf8 _)
  obtain ⟨i, t, ht, hpath, -⟩ := hselected 0 ['a'] _ hselect _ (List.mem_singleton_self _)
  have hsame := htaken 1 0 1 second first rfl rfl (by rw [hanswers]; rfl) (by rw [hanswers]; rfl)
    hsecond hfirst hkeeps' hkeeps
  exact ⟨hfirst, hsecond, OsText.isText_utf8 _, hback.2 hkeeps, hrelative.2 hinside, hother,
    hspelling _ hother, hselect, ⟨i, t, ht, hpath⟩, hanswers, hsame, hcwd home _ (by decide)⟩

/-- A file in the music directory whose name begins with a byte that begins no text. -/
def oddFile (b : UInt8) : OsText := Text.utf8 "/music/".toList ++ b :: Text.utf8 ".flac".toList

/-- Two files whose names are no texts: the second is taken for the first, which is selected under a
path that leads to neither. -/
theorem stored_confuses_files :
    let home := Text.utf8 "/music".toList
    let first : Track := ⟨oddFile 0xFF, ['a'], none, none, []⟩
    let second : Track := ⟨oddFile 0xFE, ['b'], none, none, []⟩
    let lib := after home [first, second]
    let found := Text.utf8 "/music/\ufffd.flac".toList
    isAbsolute first.path ∧ isAbsolute second.path ∧
      components second.path ≠ components first.path ∧
      answers home [first, second] = [.added 1, .existing 1] ∧
      lib.select 0 ['a'] = .ok [found] ∧ lib.select 0 ['b'] = .ok [] ∧
      components found ≠ components first.path := by
  decide +kernel

end Library

end Jukebox
