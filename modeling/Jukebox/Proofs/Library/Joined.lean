import Jukebox.Proofs.Library.Cells
import Jukebox.Proofs.Plan.Sound

set_option autoImplicit false

namespace Jukebox

open Catalogue

def admitted (names : List Text) (value : Text) : Bool :=
  names.any fun n => (Pattern.ofText n).admits value

def rank (names : List Text) (value : Text) : Cell :=
  .number (names.findIdx fun n => (Pattern.ofText n).admits value)

def Cell.ofNumber : Option Nat → Cell
  | some n => .number n
  | none => .null

namespace Selection

def albumsOf (names : List Text) (c : Catalogue) (t : TrackRow) :
    List (Catalogue.Entry × AlbumRow) :=
  (c.entriesOf t).filter fun (_, a) => admitted names a.title

def artistsOf (names : List Text) (c : Catalogue) (t : TrackRow) : List ArtistRow :=
  (c.artistsOf t).filter fun a => admitted names a.name

/-- What a selection asks of a track. -/
structure Admits (s : Selection) (c : Catalogue) (t : TrackRow) : Prop where
  albums : ∀ names, asked? s.albums = some names →
    ∃ e a, (e, a) ∈ c.entriesOf t ∧ admitted names a.title
  artists : ∀ names, asked? s.artists = some names →
    ∃ a ∈ c.artistsOf t, admitted names a.name
  titles : (∃ n ∈ s.titles, n ≠ matchAll) → admitted (s.titles.filter (· ≠ matchAll)) t.title

/-- The values by which a track sorts, from the most important on. -/
def sortsBy (s : Selection) (c : Catalogue) (t : TrackRow) : List Cell :=
  albums ++ artists ++ [rank s.titles t.title, .text t.title]
where
  albums : List Cell := match asked? s.albums with
    | some names =>
      let es := albumsOf names c t
      [.least (es.map fun (_, a) => rank names a.title),
       .least (es.map fun (_, a) => .text a.title)] ++
        if s.ordered then [.least (es.map fun (e, _) => .ofNumber e.number)] else []
    | none => []
  artists : List Cell := match asked? s.artists with
    | some names =>
      let bs := artistsOf names c t
      [.least (bs.map fun b => rank names b.name), .least (bs.map fun b => .text b.name)]
    | none => []

end Selection

/-- Which tracks a query finds before its first `or`. -/
def Query.Admits (c : Catalogue) (t : TrackRow) : Query → Prop
  | .last s => s.Admits c t
  | .link s .and rest => s.Admits c t ∧ rest.Admits c t
  | .link s .or _ => s.Admits c t

namespace Row

theorem passes_album (names : List Text) (t : TrackRow) (e : Catalogue.Entry) (a : AlbumRow)
    (b : Option ArtistRow) :
    Row.passes ⟨t, some (e, a), b⟩ ⟨.album, names.map Pattern.ofText⟩ = admitted names a.title := by
  simp [passes, value, admitted, Pattern.admitsValue, Cell.shown?, Function.comp_def]

theorem passes_artist (names : List Text) (t : TrackRow)
    (a : Option (Catalogue.Entry × AlbumRow)) (b : ArtistRow) :
    Row.passes ⟨t, a, some b⟩ ⟨.artist, names.map Pattern.ofText⟩ = admitted names b.name := by
  simp [passes, value, admitted, Pattern.admitsValue, Cell.shown?, Function.comp_def]

theorem passes_title (names : List Text) (r : Row) :
    r.passes ⟨.title, names.map Pattern.ofText⟩ = admitted names r.track.title := by
  simp [passes, value, admitted, Pattern.admitsValue, Cell.shown?, Function.comp_def]

theorem key_rank (names : List Text) {r : Row} {c : Column} {v : Text} (h : r.value c = .text v) :
    r.key (.rank c (names.map Pattern.ofText)) = rank names v := by
  simp [key, rank, h, Pattern.admitsValue, Cell.shown?, List.findIdx_map, Function.comp_def]

end Row

namespace Selection

variable {s : Selection} {c : Catalogue} {t : TrackRow}

theorem albums_mem_joins : Join.albums ∈ s.level.joins ↔ (asked? s.albums).isSome := by
  cases ha : asked? s.albums <;> cases hb : asked? s.artists <;>
    simp [level, narrowings, byAlbum?, byArtist?, narrowing?_eq, ha, hb]

theorem artists_mem_joins : Join.artists ∈ s.level.joins ↔ (asked? s.artists).isSome := by
  cases ha : asked? s.albums <;> cases hb : asked? s.artists <;>
    simp [level, narrowings, byAlbum?, byArtist?, narrowing?_eq, ha, hb]

def joinedAlbums (s : Selection) (c : Catalogue) (t : TrackRow) :
    List (Option (Catalogue.Entry × AlbumRow)) :=
  match asked? s.albums with
  | some names => (albumsOf names c t).map some
  | none => [none]

def joinedArtists (s : Selection) (c : Catalogue) (t : TrackRow) : List (Option ArtistRow) :=
  match asked? s.artists with
  | some names => (artistsOf names c t).map some
  | none => [none]

theorem titleFilters_pass (r : Row) :
    s.titleFilters.all r.passes ↔
      ((∃ n ∈ s.titles, n ≠ matchAll) →
        admitted (s.titles.filter (· ≠ matchAll)) r.track.title) := by
  have hnil : s.titles.filter (· ≠ matchAll) = [] ↔ ¬∃ n ∈ s.titles, n ≠ matchAll := by
    simp [List.filter_eq_nil_iff]
  unfold titleFilters
  split
  · next h => simp [hnil.1 h]
  · next h =>
    have hex : ∃ n ∈ s.titles, n ≠ matchAll :=
      Classical.byContradiction fun hn => h (hnil.2 hn)
    rw [List.all_cons, List.all_nil, Bool.and_true, Row.passes_title]
    simp only [hex, true_imp_iff]

theorem mem_rows {l : Level} {around r : Row} :
    r ∈ c.rows l around ↔ r.track = around.track ∧
      (r.album ∈ if .albums ∈ l.joins then (c.entriesOf around.track).map some
        else [around.album]) ∧
      r.artist ∈ if .artists ∈ l.joins then (c.artistsOf around.track).map some else [around.artist]
      := by
  simp only [rows, List.mem_flatMap, List.mem_map]
  constructor
  · rintro ⟨a, ha, b, hb, rfl⟩
    exact ⟨rfl, ha, hb⟩
  · rintro ⟨ht, ha, hb⟩
    exact ⟨r.album, ha, r.artist, hb, by rw [← ht]⟩

theorem filters_pass (r : Row) :
    s.level.filters.all r.passes ↔
      (∀ names, asked? s.albums = some names → r.passes ⟨.album, names.map Pattern.ofText⟩) ∧
      (∀ names, asked? s.artists = some names → r.passes ⟨.artist, names.map Pattern.ofText⟩) ∧
      s.titleFilters.all r.passes := by
  cases ha : asked? s.albums <;> cases hb : asked? s.artists <;>
    simp [level, narrowings, byAlbum?, byArtist?, narrowing?_eq, ha, hb]

theorem mem_joinedAlbums {r : Row} :
    r.album ∈ s.joinedAlbums c t ↔
      (r.album ∈ if (asked? s.albums).isSome then (c.entriesOf t).map some else [none]) ∧
      ∀ names, asked? s.albums = some names → r.passes ⟨.album, names.map Pattern.ofText⟩ := by
  obtain ⟨u, a?, b?⟩ := r
  unfold joinedAlbums
  cases asked? s.albums with
  | none => simp
  | some names =>
    cases a? with
    | none => simp
    | some ea =>
      obtain ⟨e, a⟩ := ea
      simp [albumsOf, Row.passes_album]

theorem mem_joinedArtists {r : Row} :
    r.artist ∈ s.joinedArtists c t ↔
      (r.artist ∈ if (asked? s.artists).isSome then (c.artistsOf t).map some else [none]) ∧
      ∀ names, asked? s.artists = some names → r.passes ⟨.artist, names.map Pattern.ofText⟩ := by
  obtain ⟨u, a?, b?⟩ := r
  unfold joinedArtists
  cases asked? s.artists with
  | none => simp
  | some names =>
    cases b? with
    | none => simp
    | some b => simp [artistsOf, Row.passes_artist]

def titleMatches (s : Selection) (t : TrackRow) : Prop :=
  (∃ n ∈ s.titles, n ≠ matchAll) → admitted (s.titles.filter (· ≠ matchAll)) t.title

/-- The rows of a track pair its matching albums with its matching artists. -/
theorem mem_levelRows {r : Row} :
    r ∈ c.levelRows s.level ⟨t, none, none⟩ ↔ r.track = t ∧ r.album ∈ s.joinedAlbums c t ∧
      r.artist ∈ s.joinedArtists c t ∧ s.titleMatches t := by
  rw [levelRows, List.mem_filter, mem_rows, filters_pass, mem_joinedAlbums, mem_joinedArtists,
    titleFilters_pass]
  simp only [albums_mem_joins, artists_mem_joins]
  constructor
  · rintro ⟨⟨rfl, ha, hb⟩, ha', hb', ht⟩
    exact ⟨rfl, ⟨ha, ha'⟩, ⟨hb, hb'⟩, ht⟩
  · rintro ⟨rfl, ⟨ha, ha'⟩, ⟨hb, hb'⟩, ht⟩
    exact ⟨⟨rfl, ha, hb⟩, ha', hb', ht⟩

theorem joinedAlbums_ne_nil :
    s.joinedAlbums c t ≠ [] ↔ ∀ names, asked? s.albums = some names →
      ∃ e a, (e, a) ∈ c.entriesOf t ∧ admitted names a.title := by
  unfold joinedAlbums
  cases asked? s.albums with
  | none => simp
  | some names => simp [albumsOf, List.filter_eq_nil_iff]

theorem joinedArtists_ne_nil :
    s.joinedArtists c t ≠ [] ↔ ∀ names, asked? s.artists = some names →
      ∃ a ∈ c.artistsOf t, admitted names a.name := by
  unfold joinedArtists
  cases asked? s.artists with
  | none => simp
  | some names => simp [artistsOf, List.filter_eq_nil_iff]

theorem levelRows_ne_nil : c.levelRows s.level ⟨t, none, none⟩ ≠ [] ↔ s.Admits c t := by
  constructor
  · intro h
    obtain ⟨r, hr⟩ := List.exists_mem_of_ne_nil _ h
    obtain ⟨-, ha, hb, ht⟩ := mem_levelRows.1 hr
    exact ⟨joinedAlbums_ne_nil.1 (List.ne_nil_of_mem ha),
      joinedArtists_ne_nil.1 (List.ne_nil_of_mem hb), ht⟩
  · rintro ⟨halbums, hartists, ht⟩
    obtain ⟨a, ha⟩ := List.exists_mem_of_ne_nil _ (joinedAlbums_ne_nil.2 halbums)
    obtain ⟨b, hb⟩ := List.exists_mem_of_ne_nil _ (joinedArtists_ne_nil.2 hartists)
    have hr : (⟨t, a, b⟩ : Row) ∈ c.levelRows s.level ⟨t, none, none⟩ :=
      mem_levelRows.2 ⟨rfl, ha, hb, ht⟩
    exact List.ne_nil_of_mem hr

/-! The least value of a key over the rows is that over the albums or the artists alone. -/

theorem least_albums (h : s.Admits c t) {names : List Text} (hn : asked? s.albums = some names)
    {k : Key} (hk : ∀ r : Row, r.key k = Row.key ⟨t, r.album, none⟩ k) :
    Cell.least ((c.levelRows s.level ⟨t, none, none⟩).map (·.key k)) =
      Cell.least ((albumsOf names c t).map fun ea => Row.key ⟨t, some ea, none⟩ k) := by
  have hjoined : s.joinedAlbums c t = (albumsOf names c t).map some := by rw [joinedAlbums, hn]
  refine Cell.least_map_congr (fun r hr => ?_) fun ea hea => ?_
  · have ha := (mem_levelRows.1 hr).2.1
    rw [hjoined, List.mem_map] at ha
    obtain ⟨ea, hea, he⟩ := ha
    exact ⟨ea, hea, by rw [hk r, he]⟩
  · have ha : some ea ∈ s.joinedAlbums c t := hjoined ▸ List.mem_map_of_mem hea
    obtain ⟨b, hb⟩ := List.exists_mem_of_ne_nil _ (joinedArtists_ne_nil.2 h.artists)
    exact ⟨⟨t, some ea, b⟩, mem_levelRows.2 ⟨rfl, ha, hb, h.titles⟩, hk _⟩

theorem least_artists (h : s.Admits c t) {names : List Text} (hn : asked? s.artists = some names)
    {k : Key} (hk : ∀ r : Row, r.key k = Row.key ⟨t, none, r.artist⟩ k) :
    Cell.least ((c.levelRows s.level ⟨t, none, none⟩).map (·.key k)) =
      Cell.least ((artistsOf names c t).map fun b => Row.key ⟨t, none, some b⟩ k) := by
  have hjoined : s.joinedArtists c t = (artistsOf names c t).map some := by rw [joinedArtists, hn]
  refine Cell.least_map_congr (fun r hr => ?_) fun b hb => ?_
  · have hb := (mem_levelRows.1 hr).2.2.1
    rw [hjoined, List.mem_map] at hb
    obtain ⟨b, hb, he⟩ := hb
    exact ⟨b, hb, by rw [hk r, he]⟩
  · have hb' : some b ∈ s.joinedArtists c t := hjoined ▸ List.mem_map_of_mem hb
    obtain ⟨a, ha⟩ := List.exists_mem_of_ne_nil _ (joinedAlbums_ne_nil.2 h.albums)
    exact ⟨⟨t, a, some b⟩, mem_levelRows.2 ⟨rfl, ha, hb', h.titles⟩, hk _⟩

theorem least_track (h : s.Admits c t) {k : Key}
    (hk : ∀ r : Row, r.key k = Row.key ⟨r.track, none, none⟩ k) :
    Cell.least ((c.levelRows s.level ⟨t, none, none⟩).map (·.key k)) =
      Row.key ⟨t, none, none⟩ k := by
  rw [← Cell.least_singleton (Row.key ⟨t, none, none⟩ k)]
  refine Cell.least_congr fun v => ?_
  simp only [List.mem_map, List.mem_singleton]
  constructor
  · rintro ⟨r, hr, rfl⟩
    rw [hk r, (mem_levelRows.1 hr).1]
  · rintro rfl
    obtain ⟨r, hr⟩ := List.exists_mem_of_ne_nil _ (levelRows_ne_nil.2 h)
    exact ⟨r, hr, by rw [hk r, (mem_levelRows.1 hr).1]⟩

theorem albumKeys_eq (h : s.Admits c t) :
    (s.byAlbum?.toList.flatMap Narrowing.keys).map (fun k =>
      Cell.least ((c.levelRows s.level ⟨t, none, none⟩).map (·.key k))) = sortsBy.albums s c t := by
  unfold byAlbum? sortsBy.albums
  rw [narrowing?_eq]
  cases hn : asked? s.albums with
  | none => rfl
  | some names =>
    have hrank : Cell.least ((c.levelRows s.level ⟨t, none, none⟩).map
        (·.key (.rank .album (names.map Pattern.ofText)))) =
        .least ((albumsOf names c t).map fun (_, a) => rank names a.title) := by
      rw [least_albums h hn fun _ => rfl]
      congr 2
      funext ⟨e, a⟩
      exact Row.key_rank names rfl
    have htitle : Cell.least ((c.levelRows s.level ⟨t, none, none⟩).map (·.key (.column .album))) =
        .least ((albumsOf names c t).map fun (_, a) => .text a.title) :=
      least_albums h hn fun _ => rfl
    have hnumber : Cell.least ((c.levelRows s.level ⟨t, none, none⟩).map
        (·.key (.column .number))) =
        .least ((albumsOf names c t).map fun (e, _) => .ofNumber e.number) := by
      rw [least_albums h hn fun _ => rfl]
      congr 2
      funext ⟨⟨_, _, number?⟩, a⟩
      cases number? <;> rfl
    cases s.ordered <;> simp [hrank, htitle, hnumber]

theorem artistKeys_eq (h : s.Admits c t) :
    (s.byArtist?.toList.flatMap Narrowing.keys).map (fun k =>
      Cell.least ((c.levelRows s.level ⟨t, none, none⟩).map (·.key k))) =
        sortsBy.artists s c t := by
  unfold byArtist? sortsBy.artists
  rw [narrowing?_eq]
  cases hn : asked? s.artists with
  | none => rfl
  | some names =>
    have hrank : Cell.least ((c.levelRows s.level ⟨t, none, none⟩).map
        (·.key (.rank .artist (names.map Pattern.ofText)))) =
        .least ((artistsOf names c t).map fun b => rank names b.name) := by
      rw [least_artists h hn fun _ => rfl]
      congr 2
      funext b
      exact Row.key_rank names rfl
    have hname : Cell.least ((c.levelRows s.level ⟨t, none, none⟩).map (·.key (.column .artist))) =
        .least ((artistsOf names c t).map fun b => .text b.name) :=
      least_artists h hn fun _ => rfl
    simp [hrank, hname]

theorem keys_eq (h : s.Admits c t) :
    (s.narrowings.flatMap Narrowing.keys ++ s.titleKeys).map (fun k =>
      Cell.least ((c.levelRows s.level ⟨t, none, none⟩).map (·.key k))) = s.sortsBy c t := by
  have htitles : s.titleKeys.map (fun k =>
      Cell.least ((c.levelRows s.level ⟨t, none, none⟩).map (·.key k))) =
      [rank s.titles t.title, .text t.title] := by
    rw [titleKeys, List.map_cons, List.map_singleton, least_track h fun _ => rfl,
      least_track h fun _ => rfl, Row.key_rank s.titles rfl]
    rfl
  rw [narrowings, List.flatMap_append, List.map_append, List.map_append, albumKeys_eq h,
    artistKeys_eq h, htitles, sortsBy]

end Selection

namespace Query

variable {c : Catalogue} {t : TrackRow}

theorem passing_unordered (c : Catalogue) (p : Plan) (r : Row) :
    c.passing p.unordered r = c.passing p r := by
  cases p <;> rfl

/-- The plan of a query finds what the query admits, by the rows of its first selection. -/
theorem rowsOf_firstPlan {q : Query} (h : q.WellFormed) :
    (c.rowsOf q.firstPlan t ≠ [] ↔ q.Admits c t) ∧
      (c.rowsOf q.firstPlan t ≠ [] →
        c.rowsOf q.firstPlan t = c.levelRows q.head.level ⟨t, none, none⟩) := by
  induction q with
  | last s => exact ⟨Selection.levelRows_ne_nil, fun _ => rfl⟩
  | link s l rest ih =>
    cases l with
    | or => exact ⟨Selection.levelRows_ne_nil, fun _ => rfl⟩
    | and =>
      have hrest := (ih h.2).1
      -- Sound by itself, the inner plan asks for the track alone and not for its row.
      have hsound : rest.firstPlan.unordered.soundIn [] := by
        rw [Plan.soundIn_unordered]
        exact soundIn_firstPlan h.2 []
      have hrows : c.rowsOf (firstPlan (.link s .and rest)) t =
          if (c.rowsOf rest.firstPlan t).isEmpty then []
          else c.levelRows s.level ⟨t, none, none⟩ := by
        rw [rowsOf, firstPlan, passing, if_pos hsound, passing_unordered]
        rfl
      rw [hrows]
      by_cases he : c.rowsOf rest.firstPlan t = []
      · simp [he, Query.Admits, ← hrest]
      · rw [if_neg (by simpa using he), Selection.levelRows_ne_nil, Query.Admits, ← hrest]
        exact ⟨⟨fun hs => ⟨hs, he⟩, And.left⟩, fun _ => rfl⟩

theorem finds_firstPlan {q : Query} (h : q.WellFormed) :
    c.finds q.firstPlan t ↔ q.Admits c t := by
  rw [finds, Bool.not_eq_true', ← (rowsOf_firstPlan h).1, ne_eq, ← List.isEmpty_iff,
    Bool.not_eq_true]

theorem Admits.head {q : Query} (h : q.Admits c t) : q.head.Admits c t := by
  cases q with
  | last s => exact h
  | link s l rest =>
    cases l with
    | and => exact h.1
    | or => exact h

theorem sortKey_firstPlan {q : Query} (h : q.WellFormed) (ha : q.Admits c t) :
    c.sortKey q.firstPlan (q.head.narrowings.flatMap Narrowing.keys ++ q.head.titleKeys) t =
      q.head.sortsBy c t := by
  have hrows := rowsOf_firstPlan (c := c) (t := t) h
  rw [sortKey, hrows.2 (hrows.1.2 ha)]
  exact Selection.keys_eq ha.head

end Query

end Jukebox
