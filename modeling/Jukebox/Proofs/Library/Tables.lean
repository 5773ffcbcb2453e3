import Mathlib.Data.List.Nodup
import Jukebox.Library.Rows

/-!
The tables of a catalogue and what adding to them does. Rows are numbered by their place, entries
and credits refer to rows that are there, and every album and artist is referred to.
-/

set_option autoImplicit false

namespace Jukebox

/-- Rows that are numbered from 1 by their place, no two of them with the same text. -/
structure Numbered {α : Type} (id : α → Nat) (text : α → Text) (rows : List α) : Prop where
  ids : rows.map id = List.range' 1 rows.length
  texts : (rows.map text).Nodup

namespace Numbered

variable {α : Type} {id : α → Nat} {text : α → Text} {rows : List α}

theorem nil : Numbered id text [] := ⟨rfl, List.nodup_nil⟩

theorem push (h : Numbered id text rows) {a : α} (hid : id a = rows.length + 1)
    (ht : text a ∉ rows.map text) : Numbered id text (rows ++ [a]) := by
  constructor
  · rw [List.map_append, h.ids, List.length_append, List.length_singleton, List.range'_concat]
    simp [hid, Nat.add_comm]
  · rw [List.map_append, List.nodup_append]
    refine ⟨h.texts, by simp, ?_⟩
    rintro t hm _ hs rfl
    rw [List.map_singleton, List.mem_singleton] at hs
    exact ht (hs ▸ hm)

theorem ne_next (h : Numbered id text rows) {n : Nat} (hn : n ∈ rows.map id) :
    n ≠ rows.length + 1 := by
  rw [h.ids, List.mem_range'_1] at hn
  omega

theorem filter_id (h : Numbered id text rows) {a : α} (ha : a ∈ rows) :
    rows.filter (id · = id a) = [a] := by
  have hn : (rows.map id).Nodup := by
    rw [h.ids]
    exact List.nodup_range'
  clear h
  induction rows with
  | nil => cases ha
  | cons b rows ih =>
    obtain ⟨hb, hn⟩ := List.nodup_cons.1 hn
    cases ha with
    | head =>
      rw [List.filter_cons_of_pos (by simp), List.filter_eq_nil_iff.2]
      intro c hc he
      exact hb (List.mem_map.2 ⟨c, hc, by simpa using he⟩)
    | tail _ ha =>
      have hne : id b ≠ id a := fun he => hb (List.mem_map.2 ⟨a, ha, he.symm⟩)
      rw [List.filter_cons_of_neg (by simpa using hne), ih ha hn]

theorem filter_append (h : Numbered id text rows) {more : List α}
    (hm : Numbered id text (rows ++ more)) {n : Nat} (hn : n ∈ rows.map id) :
    (rows ++ more).filter (id · = n) = rows.filter (id · = n) := by
  obtain ⟨a, ha, rfl⟩ := List.mem_map.1 hn
  rw [h.filter_id ha, hm.filter_id (List.mem_append_left _ ha)]

theorem find_or_push (h : Numbered id text rows) {a : α} (hid : id a = rows.length + 1) :
    (∃ b ∈ rows, rows.find? (text · = text a) = some b ∧ text b = text a) ∨
      rows.find? (text · = text a) = none ∧ Numbered id text (rows ++ [a]) := by
  cases hf : rows.find? (text · = text a) with
  | some b =>
    have hb : text b = text a := by simpa using List.find?_some hf
    exact .inl ⟨b, List.mem_of_find?_eq_some hf, rfl, hb⟩
  | none =>
    refine .inr ⟨rfl, h.push hid ?_⟩
    simpa using hf

end Numbered

/-- Links from the rows of one table to those of another, each of which is reached. -/
structure Links {α : Type} (source target : α → Nat) (sources targets : List Nat) (links : List α) :
    Prop where
  source_mem : ∀ l ∈ links, source l ∈ sources
  target_mem : ∀ l ∈ links, target l ∈ targets
  reached : ∀ n ∈ targets, ∃ l ∈ links, target l = n

namespace Links

variable {α : Type} {source target : α → Nat} {sources targets : List Nat} {links : List α}

theorem nil (sources : List Nat) : Links source target sources [] [] := ⟨nofun, nofun, nofun⟩

theorem append_sources (h : Links source target sources targets links) (more : List Nat) :
    Links source target (sources ++ more) targets links :=
  ⟨fun l hl => List.mem_append_left more (h.source_mem l hl), h.target_mem, h.reached⟩

theorem push (h : Links source target sources targets links) {l : α} (hs : source l ∈ sources)
    {more : List Nat} (ht : target l ∈ targets ++ more) (hmore : ∀ n ∈ more, n = target l) :
    Links source target sources (targets ++ more) (links ++ [l]) := by
  refine ⟨?_, ?_, ?_⟩
  · rw [List.forall_mem_append, List.forall_mem_singleton]
    exact ⟨h.source_mem, hs⟩
  · rw [List.forall_mem_append, List.forall_mem_singleton]
    exact ⟨fun k hk => List.mem_append_left more (h.target_mem k hk), ht⟩
  · rw [List.forall_mem_append]
    constructor
    · intro n hn
      obtain ⟨k, hk, hkn⟩ := h.reached n hn
      exact ⟨k, List.mem_append_left [l] hk, hkn⟩
    · intro n hn
      exact ⟨l, List.mem_append_right links (List.mem_singleton_self l), (hmore n hn).symm⟩

theorem push_row {β : Type} {id : β → Nat} {rows more : List β} {a : β} {l : α}
    (h : Links source target sources (rows.map id) links) (hs : source l ∈ sources)
    (ht : target l = id a) (ha : a ∈ rows ++ more) (hmore : ∀ b ∈ more, b = a) :
    Links source target sources ((rows ++ more).map id) (links ++ [l]) := by
  have hmem : target l ∈ (rows ++ more).map id := ht ▸ List.mem_map_of_mem ha
  rw [List.map_append] at hmem ⊢
  refine h.push hs hmem fun n hn => ?_
  obtain ⟨b, hb, rfl⟩ := List.mem_map.1 hn
  rw [hmore b hb, ht]

end Links

/-- What the links from the row numbered `n` lead to. -/
def linked {α β γ : Type} (source target : α → Nat) (id : β → Nat) (value : α → β → γ)
    (links : List α) (rows : List β) (n : Nat) : List γ :=
  (links.filter (source · = n)).flatMap fun l => (rows.filter (id · = target l)).map (value l)

section Linked

variable {α β γ : Type} {source target : α → Nat} {id : β → Nat} {text : β → Text}
  {value : α → β → γ} {sources : List Nat} {links : List α} {rows : List β}

theorem linked_more (hl : Links source target sources (rows.map id) links)
    (h : Numbered id text rows) {more : List β} (hm : Numbered id text (rows ++ more)) (n : Nat) :
    linked source target id value links (rows ++ more) n =
      linked source target id value links rows n := by
  unfold linked
  refine List.flatMap_congr fun l hmem => ?_
  rw [h.filter_append hm (hl.target_mem l (List.mem_filter.1 hmem).1)]

theorem linked_push (h : Numbered id text rows) {a : β} (ha : a ∈ rows) {l : α}
    (ht : target l = id a) (n : Nat) :
    linked source target id value (links ++ [l]) rows n =
      linked source target id value links rows n ++ if n = source l then [value l a] else [] := by
  unfold linked
  rw [List.filter_append, List.flatMap_append]
  congr 1
  by_cases hn : n = source l
  · simp [hn, ht, h.filter_id ha]
  · have hne : source l ≠ n := fun he => hn he.symm
    simp [hn, hne]

theorem linked_eq_nil (hl : Links source target sources (rows.map id) links) {n : Nat}
    (hn : n ∉ sources) : linked source target id value links rows n = [] := by
  have hnone : links.filter (source · = n) = [] := by
    refine List.filter_eq_nil_iff.2 fun l hmem he => hn ?_
    rw [← of_decide_eq_true he]
    exact hl.source_mem l hmem
  rw [linked, hnone, List.flatMap_nil]

end Linked

namespace Catalogue

structure Consistent (c : Catalogue) : Prop where
  tracks : Numbered TrackRow.id TrackRow.path c.tracks
  albums : Numbered AlbumRow.id AlbumRow.title c.albums
  artists : Numbered ArtistRow.id ArtistRow.name c.artists
  entries : Links Entry.track Entry.album (c.tracks.map TrackRow.id) (c.albums.map AlbumRow.id)
    c.entries
  credits : Links Credit.track Credit.artist (c.tracks.map TrackRow.id)
    (c.artists.map ArtistRow.id) c.credits

theorem consistent_empty : empty.Consistent := ⟨.nil, .nil, .nil, .nil [], .nil []⟩

def albumsOf (c : Catalogue) (t : TrackRow) : List (Text × Option Nat) :=
  (c.entriesOf t).map fun (e, a) => (a.title, e.number)

def namesOf (c : Catalogue) (t : TrackRow) : List Text := (c.artistsOf t).map ArtistRow.name

theorem entriesOf_eq_linked (c : Catalogue) (t : TrackRow) :
    c.entriesOf t = linked Entry.track Entry.album AlbumRow.id (fun e a => (e, a))
      c.entries c.albums t.id := rfl

theorem artistsOf_eq_linked (c : Catalogue) (t : TrackRow) :
    c.artistsOf t = linked Credit.track Credit.artist ArtistRow.id (fun _ a => a)
      c.credits c.artists t.id := by
  simp [artistsOf, linked]

theorem albumsOf_eq_linked (c : Catalogue) (t : TrackRow) :
    c.albumsOf t = linked Entry.track Entry.album AlbumRow.id (fun e a => (a.title, e.number))
      c.entries c.albums t.id := by
  simp [albumsOf, entriesOf, linked, List.map_flatMap, Function.comp_def]

theorem namesOf_eq_linked (c : Catalogue) (t : TrackRow) :
    c.namesOf t = linked Credit.track Credit.artist ArtistRow.id (fun _ a => a.name)
      c.credits c.artists t.id := by
  simp [namesOf, artistsOf, linked, List.map_flatMap]

/-- What is added for the track numbered `n` goes behind the albums and artists that are there, and
leaves every other track with its own. -/
structure Keeps (n : Nat) (c c' : Catalogue) : Prop where
  albums : c.albums <+: c'.albums
  artists : c.artists <+: c'.artists
  entriesOf : ∀ t : TrackRow, t.id ≠ n → c'.entriesOf t = c.entriesOf t
  artistsOf : ∀ t : TrackRow, t.id ≠ n → c'.artistsOf t = c.artistsOf t

namespace Keeps

variable {n : Nat} {c c' c'' : Catalogue}

theorem refl (n : Nat) (c : Catalogue) : Keeps n c c :=
  ⟨List.prefix_rfl, List.prefix_rfl, fun _ _ => rfl, fun _ _ => rfl⟩

theorem trans (h : Keeps n c c') (h' : Keeps n c' c'') : Keeps n c c'' where
  albums := h.albums.trans h'.albums
  artists := h.artists.trans h'.artists
  entriesOf t ht := (h'.entriesOf t ht).trans (h.entriesOf t ht)
  artistsOf t ht := (h'.artistsOf t ht).trans (h.artistsOf t ht)

theorem albumsOf (h : Keeps n c c') {t : TrackRow} (ht : t.id ≠ n) :
    c'.albumsOf t = c.albumsOf t := by
  rw [Catalogue.albumsOf, h.entriesOf t ht, Catalogue.albumsOf]

theorem namesOf (h : Keeps n c c') {t : TrackRow} (ht : t.id ≠ n) :
    c'.namesOf t = c.namesOf t := by
  rw [Catalogue.namesOf, h.artistsOf t ht, Catalogue.namesOf]

end Keeps

theorem ensureAlbum_spec {c : Catalogue} (h : Numbered AlbumRow.id AlbumRow.title c.albums)
    (title : Text) :
    ∃ a more, c.ensureAlbum title = (a.id, { c with albums := c.albums ++ more }) ∧
      a.title = title ∧ a ∈ c.albums ++ more ∧ (∀ b ∈ more, b = a) ∧
      Numbered AlbumRow.id AlbumRow.title (c.albums ++ more) := by
  unfold ensureAlbum
  obtain ⟨b, hb, hf, ht⟩ | ⟨hf, hn⟩ := h.find_or_push (a := ⟨c.albums.length + 1, title⟩) rfl
  · refine ⟨b, [], ?_, ht, by simpa using hb, nofun, by simpa using h⟩
    simp [hf]
  · refine ⟨⟨c.albums.length + 1, title⟩, [⟨c.albums.length + 1, title⟩], ?_, rfl, by simp, by simp,
      hn⟩
    simp [hf]

theorem ensureArtist_spec {c : Catalogue} (h : Numbered ArtistRow.id ArtistRow.name c.artists)
    (name : Text) :
    ∃ a more, c.ensureArtist name = (a.id, { c with artists := c.artists ++ more }) ∧
      a.name = name ∧ a ∈ c.artists ++ more ∧ (∀ b ∈ more, b = a) ∧
      Numbered ArtistRow.id ArtistRow.name (c.artists ++ more) := by
  unfold ensureArtist
  obtain ⟨b, hb, hf, ht⟩ | ⟨hf, hn⟩ := h.find_or_push (a := ⟨c.artists.length + 1, name⟩) rfl
  · refine ⟨b, [], ?_, ht, by simpa using hb, nofun, by simpa using h⟩
    simp [hf]
  · refine ⟨⟨c.artists.length + 1, name⟩, [⟨c.artists.length + 1, name⟩], ?_, rfl, by simp, by simp,
      hn⟩
    simp [hf]

theorem putOnAlbum_spec {c : Catalogue} (h : c.Consistent) {t : TrackRow} (ht : t ∈ c.tracks)
    (title : Text) (number : Option Nat) :
    (c.putOnAlbum t.id title number).Consistent ∧
      (c.putOnAlbum t.id title number).tracks = c.tracks ∧
      Keeps t.id c (c.putOnAlbum t.id title number) ∧
      (c.putOnAlbum t.id title number).albumsOf t = c.albumsOf t ++ [(title, number)] ∧
      (c.putOnAlbum t.id title number).namesOf t = c.namesOf t := by
  obtain ⟨a, more, he, rfl, ha, hmore, hn⟩ := ensureAlbum_spec h.albums title
  rw [putOnAlbum, he]
  have hlink : Entry.album ⟨a.id, t.id, number⟩ = a.id := rfl
  have hlinks := h.entries.push_row (List.mem_map_of_mem ht) hlink ha hmore
  refine ⟨{ h with albums := hn, entries := hlinks }, rfl,
    ⟨List.prefix_append _ _, List.prefix_rfl, fun u hu => ?_, fun _ _ => rfl⟩, ?_, rfl⟩
  · rw [entriesOf_eq_linked, linked_push hn ha hlink, linked_more h.entries h.albums hn, if_neg hu,
      List.append_nil, entriesOf_eq_linked]
  · simp only [albumsOf_eq_linked]
    rw [linked_push hn ha hlink, linked_more h.entries h.albums hn, if_pos rfl]

theorem putOnAlbum?_spec {c : Catalogue} (h : c.Consistent) {t : TrackRow} (ht : t ∈ c.tracks)
    (title? : Option Text) (number : Option Nat) :
    ∃ c', title?.elim c (c.putOnAlbum t.id · number) = c' ∧ c'.Consistent ∧ c'.tracks = c.tracks ∧
      Keeps t.id c c' ∧ c'.albumsOf t = c.albumsOf t ++ title?.toList.map (·, number) ∧
      c'.namesOf t = c.namesOf t := by
  cases title? with
  | none => exact ⟨c, rfl, h, rfl, .refl _ c, by simp, rfl⟩
  | some title => exact ⟨_, rfl, putOnAlbum_spec h ht title number⟩

theorem credit_spec {c : Catalogue} (h : c.Consistent) {t : TrackRow} (ht : t ∈ c.tracks)
    (name : Text) :
    (c.credit t.id name).Consistent ∧
      (c.credit t.id name).tracks = c.tracks ∧
      Keeps t.id c (c.credit t.id name) ∧
      (c.credit t.id name).albumsOf t = c.albumsOf t ∧
      (c.credit t.id name).namesOf t = c.namesOf t ++ [name] := by
  obtain ⟨a, more, he, rfl, ha, hmore, hn⟩ := ensureArtist_spec h.artists name
  rw [credit, he]
  have hlink : Credit.artist ⟨t.id, a.id⟩ = a.id := rfl
  have hlinks := h.credits.push_row (List.mem_map_of_mem ht) hlink ha hmore
  refine ⟨{ h with artists := hn, credits := hlinks }, rfl,
    ⟨List.prefix_rfl, List.prefix_append _ _, fun _ _ => rfl, fun u hu => ?_⟩, rfl, ?_⟩
  · rw [artistsOf_eq_linked, linked_push hn ha hlink, linked_more h.credits h.artists hn, if_neg hu,
      List.append_nil, artistsOf_eq_linked]
  · simp only [namesOf_eq_linked]
    rw [linked_push hn ha hlink, linked_more h.credits h.artists hn, if_pos rfl]

theorem credits_spec (names : List Text) {c : Catalogue} (h : c.Consistent) {t : TrackRow}
    (ht : t ∈ c.tracks) :
    (names.foldl (·.credit t.id ·) c).Consistent ∧
      (names.foldl (·.credit t.id ·) c).tracks = c.tracks ∧
      Keeps t.id c (names.foldl (·.credit t.id ·) c) ∧
      (names.foldl (·.credit t.id ·) c).albumsOf t = c.albumsOf t ∧
      (names.foldl (·.credit t.id ·) c).namesOf t = c.namesOf t ++ names := by
  induction names generalizing c with
  | nil => exact ⟨h, rfl, .refl _ c, rfl, (List.append_nil _).symm⟩
  | cons name names ih =>
    obtain ⟨hc, htracks, hkeeps, halbums, hnames⟩ := credit_spec h ht name
    obtain ⟨hc', htracks', hkeeps', halbums', hnames'⟩ := ih hc (htracks ▸ ht)
    refine ⟨hc', htracks'.trans htracks, hkeeps.trans hkeeps', halbums'.trans halbums, ?_⟩
    rw [List.foldl_cons, hnames', hnames, List.append_assoc, List.singleton_append]

theorem Consistent.push {c : Catalogue} (h : c.Consistent) {r : TrackRow}
    (hid : r.id = c.tracks.length + 1) (hp : r.path ∉ c.tracks.map TrackRow.path) :
    ({ c with tracks := c.tracks ++ [r] } : Catalogue).Consistent := by
  refine { h with tracks := h.tracks.push hid hp, entries := ?_, credits := ?_ }
  · rw [List.map_append]
    exact h.entries.append_sources [r.id]
  · rw [List.map_append]
    exact h.credits.append_sources [r.id]

theorem Consistent.albumsOf_new {c : Catalogue} (h : c.Consistent) {r : TrackRow}
    (hid : r.id = c.tracks.length + 1) : c.albumsOf r = [] := by
  rw [albumsOf_eq_linked]
  exact linked_eq_nil h.entries fun hm => h.tracks.ne_next hm hid

theorem Consistent.namesOf_new {c : Catalogue} (h : c.Consistent) {r : TrackRow}
    (hid : r.id = c.tracks.length + 1) : c.namesOf r = [] := by
  rw [namesOf_eq_linked]
  exact linked_eq_nil h.credits fun hm => h.tracks.ne_next hm hid

theorem Consistent.trackAt?_path {c : Catalogue} (h : c.Consistent) {r : TrackRow}
    (hr : r ∈ c.tracks) : c.trackAt? r.path = some r.id := by
  unfold trackAt?
  cases hf : c.tracks.find? (·.path = r.path) with
  | none => simpa using List.find?_eq_none.1 hf r hr
  | some s =>
    have hs : s.path = r.path := by simpa using List.find?_some hf
    rw [List.inj_on_of_nodup_map h.tracks.texts (List.mem_of_find?_eq_some hf) hr hs]
    rfl

theorem Consistent.album_reached {c : Catalogue} (h : c.Consistent) {a : AlbumRow}
    (ha : a ∈ c.albums) : ∃ t ∈ c.tracks, ∃ e, (e, a) ∈ c.entriesOf t := by
  obtain ⟨e, he, hea⟩ := h.entries.reached a.id (List.mem_map_of_mem ha)
  obtain ⟨t, ht, hte⟩ := List.mem_map.1 (h.entries.source_mem e he)
  refine ⟨t, ht, e, List.mem_flatMap.2 ⟨e, List.mem_filter.2 ⟨he, by simpa using hte.symm⟩, ?_⟩⟩
  rw [hea, h.albums.filter_id ha]
  exact List.mem_singleton_self _

theorem Consistent.artist_reached {c : Catalogue} (h : c.Consistent) {a : ArtistRow}
    (ha : a ∈ c.artists) : ∃ t ∈ c.tracks, a ∈ c.artistsOf t := by
  obtain ⟨k, hk, hka⟩ := h.credits.reached a.id (List.mem_map_of_mem ha)
  obtain ⟨t, ht, htk⟩ := List.mem_map.1 (h.credits.source_mem k hk)
  refine ⟨t, ht, List.mem_flatMap.2 ⟨k, List.mem_filter.2 ⟨hk, by simpa using htk.symm⟩, ?_⟩⟩
  rw [hka, h.artists.filter_id ha]
  exact List.mem_singleton_self _

/-- A row holds a track that was added under a path. -/
structure Holds (c : Catalogue) (path : Text) (t : Track) (r : TrackRow) : Prop where
  title : r.title = t.title
  path : r.path = path
  albums : c.albumsOf r = t.album.toList.map (·, t.number)
  artists : c.namesOf r = t.artists

theorem add_taken {c : Catalogue} (h : c.Consistent) {r : TrackRow} (hr : r ∈ c.tracks)
    (t : Track) : c.add r.path t = (.existing r.id, c) := by
  rw [add, h.trackAt?_path hr]

theorem add_new {c : Catalogue} (h : c.Consistent) {path : Text}
    (hp : path ∉ c.tracks.map TrackRow.path) (t : Track) :
    ∃ c' r, c.add path t = (.added r.id, c') ∧ r.id = c.tracks.length + 1 ∧ c'.Consistent ∧
      c'.tracks = c.tracks ++ [r] ∧ c'.Holds path t r ∧ Keeps r.id c c' := by
  have htrack : c.trackAt? path = none := by simpa [trackAt?] using hp
  let r : TrackRow := ⟨c.tracks.length + 1, t.title, path⟩
  have hr : r ∈ c.tracks ++ [r] := List.mem_append_right _ (List.mem_singleton_self r)
  obtain ⟨c₁, hc₁, hcon₁, htracks₁, hkeeps₁, halbums₁, hnames₁⟩ :=
    putOnAlbum?_spec (h.push (r := r) rfl hp) hr t.album t.number
  obtain ⟨hcon, htracks, hkeeps, halbums, hnames⟩ :=
    credits_spec t.artists hcon₁ (t := r) (htracks₁.symm ▸ hr)
  have hpush : Keeps r.id c { c with tracks := c.tracks ++ [r] } :=
    ⟨List.prefix_rfl, List.prefix_rfl, fun _ _ => rfl, fun _ _ => rfl⟩
  refine ⟨t.artists.foldl (·.credit r.id ·) c₁, r, ?_, rfl, hcon, htracks.trans htracks₁,
    ⟨rfl, rfl, ?_, ?_⟩, (hpush.trans hkeeps₁).trans hkeeps⟩
  · rw [add, htrack, ← hc₁]
    cases t.album <;> rfl
  · have hnil : ({ c with tracks := c.tracks ++ [r] } : Catalogue).albumsOf r = [] :=
      h.albumsOf_new rfl
    rw [halbums, halbums₁, hnil, List.nil_append]
  · have hnil : ({ c with tracks := c.tracks ++ [r] } : Catalogue).namesOf r = [] :=
      h.namesOf_new rfl
    rw [hnames, hnames₁, hnil, List.nil_append]

end Catalogue

end Jukebox
