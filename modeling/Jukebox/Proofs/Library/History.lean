import Mathlib.Data.List.Induction
import Jukebox.Proofs.Library.Kept
import Jukebox.Proofs.Library.Tables

/-!
A library after any number of additions. It keeps the first track of each stored path, and what
the tables tell about a row is what that track said.
-/

set_option autoImplicit false

namespace Jukebox

def Addition.isAdded : Addition → Bool
  | .added _ => true
  | .existing _ => false

namespace Library

open Catalogue

def calls (home : OsText) (ts : List Track) : List Addition × Library :=
  ts.foldl (fun (answers, lib) t => (answers ++ [(lib.add t).1], (lib.add t).2)) ([], new home)

def answers (home : OsText) (ts : List Track) : List Addition := (calls home ts).1

def after (home : OsText) (ts : List Track) : Library := (calls home ts).2

/-- The path under which a library over a directory keeps a track. -/
def storedIn (home : OsText) (t : Track) : Text := (new home).storedPath t.path

/-- No path of the tracks loses anything where it is kept. -/
def KeepsAll (home : OsText) (ts : List Track) : Prop := ∀ t ∈ ts, (new home).KeepsWhole t.path

-- The directory of the libraries in the cases that follow the general theorems.
def music : OsText := Text.utf8 "/music".toList

/-- The track with this index is the first with its stored path. -/
def FirstAt (home : OsText) (ts : List Track) (i : Nat) (t : Track) : Prop :=
  ts[i]? = some t ∧ ∀ u ∈ ts.take i, storedIn home u ≠ storedIn home t

theorem answers_concat (home : OsText) (ts : List Track) (t : Track) :
    answers home (ts ++ [t]) = answers home ts ++ [((after home ts).add t).1] := by
  simp [answers, after, calls]

theorem after_concat (home : OsText) (ts : List Track) (t : Track) :
    after home (ts ++ [t]) = ((after home ts).add t).2 := by
  simp [after, calls]

theorem length_answers (home : OsText) (ts : List Track) :
    (answers home ts).length = ts.length := by
  induction ts using List.reverseRecOn with
  | nil => rfl
  | append_singleton ts t ih => simp [answers_concat, ih]

theorem answers_append (home : OsText) (ts us : List Track) :
    ∃ more, answers home (ts ++ us) = answers home ts ++ more := by
  induction us using List.reverseRecOn with
  | nil => exact ⟨[], by simp⟩
  | append_singleton us u ih =>
    obtain ⟨more, hmore⟩ := ih
    rw [← List.append_assoc, answers_concat, hmore, List.append_assoc]
    exact ⟨_, rfl⟩

theorem answers_take (home : OsText) (ts : List Track) (i : Nat) :
    (answers home ts).take i = answers home (ts.take i) := by
  by_cases hi : i ≤ ts.length
  · obtain ⟨more, hmore⟩ := answers_append home (ts.take i) (ts.drop i)
    have hlen : (answers home (ts.take i)).length = i := by
      rw [length_answers, List.length_take_of_le hi]
    rw [List.take_append_drop] at hmore
    rw [hmore, List.take_left' hlen]
  · have hall : ts.length ≤ i := by omega
    rw [List.take_of_length_le hall, List.take_of_length_le]
    rwa [length_answers]

theorem answers_getElem? {home : OsText} {ts : List Track} {i : Nat} {t : Track}
    (h : ts[i]? = some t) :
    (answers home ts)[i]? = some ((after home (ts.take i)).add t).1 := by
  have hi : i < ts.length := (List.getElem?_eq_some_iff.1 h).1
  have hlen : (answers home (ts.take i)).length = i := by
    rw [length_answers, List.length_take_of_le (Nat.le_of_lt hi)]
  have htake : ts.take (i + 1) = ts.take i ++ [t] := by
    rw [List.take_add_one, h]
    rfl
  have hget : (answers home ts)[i]? = ((answers home ts).take (i + 1))[i]? := by
    rw [List.getElem?_take_of_lt (Nat.lt_succ_self i)]
  rw [hget, answers_take, htake, answers_concat, List.getElem?_append_right (Nat.le_of_eq hlen),
    hlen, Nat.sub_self]
  rfl

theorem after_take_succ {home : OsText} {ts : List Track} {i : Nat} {t : Track}
    (h : ts[i]? = some t) :
    after home (ts.take (i + 1)) = ((after home (ts.take i)).add t).2 := by
  rw [List.take_add_one, h, ← after_concat]
  rfl

theorem getElem?_append_of_eq_some {α : Type} {as : List α} {i : Nat} {a : α}
    (h : as[i]? = some a) (bs : List α) : (as ++ bs)[i]? = some a := by
  have hi : i < as.length := (List.getElem?_eq_some_iff.1 h).1
  rw [List.getElem?_append_left hi, h]

theorem FirstAt.concat {home : OsText} {ts : List Track} {i : Nat} {t u : Track}
    (h : FirstAt home ts i t) : FirstAt home (ts ++ [u]) i t := by
  have hi : i < ts.length := (List.getElem?_eq_some_iff.1 h.1).1
  refine ⟨getElem?_append_of_eq_some h.1 _, ?_⟩
  rw [List.take_append_of_le_length (Nat.le_of_lt hi)]
  exact h.2

theorem firstAt_take {home : OsText} {ts : List Track} {i j : Nat} {t : Track} :
    FirstAt home (ts.take i) j t ↔ j < i ∧ FirstAt home ts j t := by
  unfold FirstAt
  by_cases hj : j < i
  · rw [List.getElem?_take_of_lt hj, List.take_take, Nat.min_eq_left (Nat.le_of_lt hj)]
    simp [hj]
  · have hnone : (ts.take i)[j]? = none := by
      rw [List.getElem?_eq_none_iff, List.length_take]
      omega
    rw [hnone]
    constructor
    · rintro ⟨hget, -⟩
      cases hget
    · rintro ⟨hlt, -⟩
      exact absurd hlt hj

theorem firstAt_concat {home : OsText} {ts : List Track} {i : Nat} {t u : Track}
    (h : FirstAt home (ts ++ [u]) i t) :
    FirstAt home ts i t ∨
      i = ts.length ∧ t = u ∧ ∀ v ∈ ts, storedIn home v ≠ storedIn home u := by
  obtain ⟨hget, hnew⟩ := h
  by_cases hi : i < ts.length
  · rw [List.getElem?_append_left hi] at hget
    rw [List.take_append_of_le_length (Nat.le_of_lt hi)] at hnew
    exact .inl ⟨hget, hnew⟩
  · have hlen := (List.getElem?_eq_some_iff.1 hget).1
    rw [List.length_append, List.length_singleton] at hlen
    obtain rfl : i = ts.length := by omega
    rw [List.getElem?_concat_length, Option.some.injEq] at hget
    subst hget
    rw [List.take_left] at hnew
    exact .inr ⟨rfl, rfl, hnew⟩

theorem exists_firstAt (home : OsText) {ts : List Track} {t : Track} (h : t ∈ ts) :
    ∃ i u, FirstAt home ts i u ∧ storedIn home u = storedIn home t := by
  have hi : ts.findIdx (fun u => storedIn home u = storedIn home t) < ts.length :=
    List.findIdx_lt_length_of_exists ⟨t, h, by simp⟩
  have hstored := List.findIdx_getElem (w := hi)
  rw [decide_eq_true_eq] at hstored
  refine ⟨_, _, ⟨List.getElem?_eq_getElem hi, fun v hv => ?_⟩, hstored⟩
  obtain ⟨j, hj, rfl⟩ := List.mem_iff_getElem.1 hv
  rw [List.length_take, Nat.lt_min] at hj
  have hne := List.not_of_lt_findIdx hj.1
  rw [List.getElem_take, hstored]
  simpa using hne

/-- What the tables of a library tell, and what it answered, after some tracks were added. -/
structure Records (home : OsText) (ts : List Track) (given : List Addition) (lib : Library) :
    Prop where
  home_eq : lib.home = home
  consistent : lib.catalogue.Consistent
  count : given.countP Addition.isAdded = lib.catalogue.tracks.length
  length : given.length = ts.length
  first : ∀ i t, FirstAt home ts i t → ∃ r ∈ lib.catalogue.tracks,
    given[i]? = some (.added r.id) ∧ lib.catalogue.Holds (storedIn home t) t r
  row : ∀ r ∈ lib.catalogue.tracks, ∃ i t, FirstAt home ts i t ∧ r.path = storedIn home t ∧
    given[i]? = some (.added r.id)

theorem records_new (home : OsText) : Records home [] [] (new home) :=
  ⟨rfl, consistent_empty, rfl, rfl, nofun, nofun⟩

namespace Records

variable {home : OsText} {ts : List Track} {given : List Addition} {lib : Library}

theorem storedPath (h : Records home ts given lib) (t : Track) :
    lib.storedPath t.path = storedIn home t := by
  rw [Library.storedPath, remainder, h.home_eq]
  rfl

theorem holds_row (h : Records home ts given lib) {r : TrackRow} (hr : r ∈ lib.catalogue.tracks) :
    ∃ i t, FirstAt home ts i t ∧ lib.catalogue.Holds (storedIn home t) t r := by
  obtain ⟨i, t, ht, hpath, -⟩ := h.row r hr
  obtain ⟨s, hs, -, hholds⟩ := h.first i t ht
  have hsame : s.path = r.path := hholds.path.trans hpath.symm
  exact ⟨i, t, ht, List.inj_on_of_nodup_map h.consistent.tracks.texts hs hr hsame ▸ hholds⟩

theorem add_taken (h : Records home ts given lib) {t : Track} {i : Nat} {u : Track}
    (hu : FirstAt home ts i u) (hs : storedIn home u = storedIn home t) :
    ∃ id, given[i]? = some (.added id) ∧ lib.add t = (.existing id, lib) := by
  obtain ⟨r, hr, hget, hholds⟩ := h.first i u hu
  refine ⟨r.id, hget, ?_⟩
  rw [Library.add, h.storedPath, ← hs, ← hholds.path, Catalogue.add_taken h.consistent hr]

theorem path_not_mem (h : Records home ts given lib) {t : Track}
    (ht : ∀ u ∈ ts, storedIn home u ≠ storedIn home t) :
    storedIn home t ∉ lib.catalogue.tracks.map TrackRow.path := by
  intro hm
  obtain ⟨r, hr, hp⟩ := List.mem_map.1 hm
  obtain ⟨i, u, hu, hpath, -⟩ := h.row r hr
  exact ht u (List.mem_of_getElem? hu.1) (hpath.symm.trans hp)

theorem add_new (h : Records home ts given lib) {t : Track}
    (ht : ∀ u ∈ ts, storedIn home u ≠ storedIn home t) :
    (lib.add t).1 = .added (given.countP Addition.isAdded + 1) ∧
      Records home (ts ++ [t]) (given ++ [(lib.add t).1]) (lib.add t).2 := by
  obtain ⟨c', r, hadd, hid, hcon, htracks, hholds, hkeeps⟩ :=
    Catalogue.add_new h.consistent (h.path_not_mem ht) t
  have hlib : lib.add t = (.added r.id, ⟨lib.home, c'⟩) := by
    rw [Library.add, h.storedPath, hadd]
  rw [hlib, h.count, ← hid]
  refine ⟨rfl, h.home_eq, hcon, ?_, by simp [h.length], ?_, ?_⟩
  · rw [List.countP_append, h.count, htracks, List.length_append]
    rfl
  · intro i u hu
    rcases firstAt_concat hu with hu | ⟨rfl, rfl, -⟩
    · obtain ⟨s, hs, hget, hold⟩ := h.first i u hu
      have hne : s.id ≠ r.id := hid ▸ h.consistent.tracks.ne_next (List.mem_map_of_mem hs)
      refine ⟨s, htracks ▸ List.mem_append_left _ hs, getElem?_append_of_eq_some hget _, hold.title,
        hold.path, ?_, ?_⟩
      · rw [hkeeps.albumsOf hne, hold.albums]
      · rw [hkeeps.namesOf hne, hold.artists]
    · refine ⟨r, htracks ▸ List.mem_append_right _ (List.mem_singleton_self r), ?_, hholds⟩
      rw [← h.length, List.getElem?_concat_length]
  · intro s hs
    rw [htracks] at hs
    rcases List.mem_append.1 hs with hs | hs
    · obtain ⟨i, u, hu, hpath, hget⟩ := h.row s hs
      exact ⟨i, u, hu.concat, hpath, getElem?_append_of_eq_some hget _⟩
    · obtain rfl := List.mem_singleton.1 hs
      refine ⟨ts.length, t, ⟨List.getElem?_concat_length, ?_⟩, hholds.path, ?_⟩
      · rw [List.take_left]
        exact ht
      · rw [← h.length, List.getElem?_concat_length]

theorem add (h : Records home ts given lib) (t : Track) :
    Records home (ts ++ [t]) (given ++ [(lib.add t).1]) (lib.add t).2 := by
  by_cases ht : ∀ u ∈ ts, storedIn home u ≠ storedIn home t
  · exact (h.add_new ht).2
  · push Not at ht
    obtain ⟨v, hv, hvt⟩ := ht
    -- The path is taken, and the call is answered with the first track that has it.
    obtain ⟨j, w, hw, hwv⟩ := exists_firstAt home hv
    obtain ⟨id, -, hadd⟩ := h.add_taken hw (hwv.trans hvt)
    rw [hadd]
    refine ⟨h.home_eq, h.consistent, by simp [h.count, Addition.isAdded],
      by simp [h.length], ?_, ?_⟩
    · intro i u hu
      rcases firstAt_concat hu with hu | ⟨-, -, hnew⟩
      · obtain ⟨r, hr, hget, hold⟩ := h.first i u hu
        exact ⟨r, hr, getElem?_append_of_eq_some hget _, hold⟩
      · exact absurd hvt (hnew v hv)
    · intro r hr
      obtain ⟨i, u, hu, hpath, hget⟩ := h.row r hr
      exact ⟨i, u, hu.concat, hpath, getElem?_append_of_eq_some hget _⟩

end Records

theorem records (home : OsText) (ts : List Track) :
    Records home ts (answers home ts) (after home ts) := by
  induction ts using List.reverseRecOn with
  | nil => exact records_new home
  | append_singleton ts t ih =>
    rw [answers_concat, after_concat]
    exact ih.add t

/-- A call with a new stored path adds the next number. -/
theorem answer_new {home : OsText} {ts : List Track} {i : Nat} {t : Track}
    (h : FirstAt home ts i t) :
    (answers home ts)[i]? =
      some (.added (((answers home ts).take i).countP Addition.isAdded + 1)) := by
  obtain ⟨hget, hnew⟩ := h
  rw [answers_getElem? hget, answers_take, ((records home (ts.take i)).add_new hnew).1]

/-- Any other call finds the number of the first call with its stored path, and changes nothing. -/
theorem answer_taken {home : OsText} {ts : List Track} {i : Nat} {t : Track}
    (hget : ts[i]? = some t) (htaken : ∃ u ∈ ts.take i, storedIn home u = storedIn home t) :
    ∃ j u id, j < i ∧ FirstAt home ts j u ∧ storedIn home u = storedIn home t ∧
      (answers home ts)[j]? = some (.added id) ∧ (answers home ts)[i]? = some (.existing id) ∧
      after home (ts.take (i + 1)) = after home (ts.take i) := by
  obtain ⟨v, hv, hvt⟩ := htaken
  obtain ⟨j, u, hu, huv⟩ := exists_firstAt home hv
  obtain ⟨id, hj, hadd⟩ := (records home (ts.take i)).add_taken hu (huv.trans hvt)
  obtain ⟨hji, hu⟩ := firstAt_take.1 hu
  rw [← answers_take, List.getElem?_take_of_lt hji] at hj
  refine ⟨j, u, id, hji, hu, huv.trans hvt, hj, ?_, ?_⟩
  · rw [answers_getElem? hget, hadd]
  · rw [after_take_succ hget, hadd]

theorem firstAt_or_taken (home : OsText) {ts : List Track} {i : Nat} {t : Track}
    (hget : ts[i]? = some t) :
    FirstAt home ts i t ∨ ∃ u ∈ ts.take i, storedIn home u = storedIn home t := by
  by_cases h : ∃ u ∈ ts.take i, storedIn home u = storedIn home t
  · exact .inr h
  · push Not at h
    exact .inl ⟨hget, h⟩

theorem firstAt_iff_added {home : OsText} {ts : List Track} {i : Nat} {t : Track} :
    FirstAt home ts i t ↔ ts[i]? = some t ∧ ∃ id, (answers home ts)[i]? = some (.added id) := by
  refine ⟨fun h => ⟨h.1, _, answer_new h⟩, ?_⟩
  rintro ⟨hget, id, hadded⟩
  refine (firstAt_or_taken home hget).resolve_right fun htaken => ?_
  obtain ⟨_, _, _, -, -, -, -, hexisting, -⟩ := answer_taken hget htaken
  rw [hadded] at hexisting
  cases hexisting

/-- A library is a list of tracks with different stored paths. A call whose stored path is new adds
the next number, any other call finds the number of the first call with its stored path and changes
nothing. In the end each row holds what the first call with its stored path said. -/
theorem calls_refine_distinct_tracks (home : OsText) (ts : List Track) :
    let c := (after home ts).catalogue
    (∀ i t, FirstAt home ts i t → (answers home ts)[i]? =
      some (.added (((answers home ts).take i).countP Addition.isAdded + 1))) ∧
    (∀ i t, ts[i]? = some t → (∃ u ∈ ts.take i, storedIn home u = storedIn home t) →
      ∃ j u id, j < i ∧ FirstAt home ts j u ∧ storedIn home u = storedIn home t ∧
        (answers home ts)[j]? = some (.added id) ∧ (answers home ts)[i]? = some (.existing id) ∧
        after home (ts.take (i + 1)) = after home (ts.take i)) ∧
    (∀ i t, FirstAt home ts i t → ∃ r, (answers home ts)[i]? = some (.added r.id) ∧
      c.tracks.filter (·.id = r.id) = [r] ∧ r.title = t.title ∧ r.path = storedIn home t ∧
      (c.entriesOf r).map (fun (e, a) => (a.title, e.number)) =
        t.album.toList.map (fun title => (title, t.number)) ∧
      (c.artistsOf r).map ArtistRow.name = t.artists) ∧
    (∀ r ∈ c.tracks, ∃ i t, FirstAt home ts i t ∧ (answers home ts)[i]? = some (.added r.id)) ∧
    (c.albums.map AlbumRow.title).Nodup ∧ (c.artists.map ArtistRow.name).Nodup ∧
    (∀ a ∈ c.albums, ∃ r ∈ c.tracks, ∃ e, (e, a) ∈ c.entriesOf r) ∧
    ∀ a ∈ c.artists, ∃ r ∈ c.tracks, a ∈ c.artistsOf r := by
  intro c
  have hrec := records home ts
  refine ⟨fun i t => answer_new, fun i t => answer_taken, ?_, ?_, hrec.consistent.albums.texts,
    hrec.consistent.artists.texts, ?_, ?_⟩
  · intro i t ht
    obtain ⟨r, hr, hget, hholds⟩ := hrec.first i t ht
    exact ⟨r, hget, hrec.consistent.tracks.filter_id hr, hholds.title, hholds.path, hholds.albums,
      hholds.artists⟩
  · intro r hr
    obtain ⟨i, t, ht, -, hget⟩ := hrec.row r hr
    exact ⟨i, t, ht, hget⟩
  · exact fun a ha => hrec.consistent.album_reached ha
  · exact fun a ha => hrec.consistent.artist_reached ha

end Library

end Jukebox
