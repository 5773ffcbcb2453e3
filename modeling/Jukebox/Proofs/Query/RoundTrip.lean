import Jukebox.Proofs.Query.WellFormed

set_option autoImplicit false

namespace Jukebox

open Lexeme Grammar Text

/-- However a word that ends goes on, `text` in front of it is scanned as lexemes of `P`. -/
def Scans (text : Text) (P : List Lexeme → Prop) : Prop :=
  ∀ column rest, wordEnds rest →
    ∃ ls column', scan column (text ++ rest) = ls ++ scan column' rest ∧ P ls

theorem Scans.append {t u : Text} {P Q R : List Lexeme → Prop} (ht : Scans t P) (hu : Scans u Q)
    (hw : wordEnds u) (h : ∀ ls ms, P ls → Q ms → R (ls ++ ms)) : Scans (t ++ u) R := by
  intro column rest hr
  obtain ⟨ls, column', hls, hP⟩ := ht column (u ++ rest) (wordEnds_append hw hr)
  obtain ⟨ms, column'', hms, hQ⟩ := hu column' rest hr
  exact ⟨ls ++ ms, column'', by rw [List.append_assoc, hls, hms, List.append_assoc], h ls ms hP hQ⟩

theorem Scans.imp {t : Text} {P Q : List Lexeme → Prop} (ht : Scans t P) (h : ∀ ls, P ls → Q ls) :
    Scans t Q := by
  intro column rest hr
  obtain ⟨ls, column', hls, hP⟩ := ht column rest hr
  exact ⟨ls, column', hls, h ls hP⟩

theorem scans_nil {P : List Lexeme → Prop} (h : P []) : Scans [] P :=
  fun column _ _ => ⟨[], column, rfl, h⟩

theorem Keyword.wordEnds_text_append (k : Keyword) (rest : Text) :
    wordEnds (k.text ++ rest) = false := by cases k <;> rfl

theorem scan_keyword (k : Keyword) {rest : Text} (h : wordEnds rest) (column : Nat) :
    ∃ column' l, scan column (' ' :: (k.text ++ rest)) = l :: scan column' rest ∧
      l.kind = .keyword k := by
  rw [scan_blank (by decide), scan_of_read (k.wordEnds_text_append rest) (read_keyword k h)]
  exact ⟨_, _, rfl, rfl⟩

theorem ne_nil_of_isName {name : Text} (h : IsName name) : name ≠ [] := by
  obtain ⟨-, hcore, -, -⟩ := h
  simp [hcore]

theorem wordEnds_name_append {name : Text} (h : IsName name) (rest : Text) :
    wordEnds (name ++ rest) = false := by
  rw [Bool.eq_false_iff, ne_eq, wordEnds_iff, run_append (not_blank_of_isName h)]
  simp [ne_nil_of_isName h]

theorem ofText?_eq_none_iff_notMem {name : Text} :
    Keyword.ofText? name = none ↔ name ∉ Keyword.all.map Keyword.text := by
  simp [Keyword.ofText?_eq_none_iff, Keyword.mem_all]

theorem scan_writeName {name rest : Text} (hn : IsName name) (hr : nameEnds rest) (column : Nat) :
    ∃ column', scan column (writeName name ++ rest) =
      ⟨.name, name, column⟩ :: scan column' rest := by
  unfold writeName
  -- With the colon no keyword is read, and without it the name spells none.
  split
  · exact ⟨_, scan_of_read rfl (read_escaped hn hr) column⟩
  · next hk =>
    exact ⟨_, scan_of_read (wordEnds_name_append hn rest)
      (read_name hn hr fun _ => ofText?_eq_none_iff_notMem.2 hk) column⟩

theorem scan_comma (column : Nat) (rest : Text) :
    ∃ column', scan column (',' :: ' ' :: rest) = ⟨.comma, [','], column⟩ :: scan column' rest := by
  rw [scan_of_read rfl (read_comma (' ' :: rest)), scan_blank (by decide)]
  exact ⟨_, rfl⟩

theorem writeNames_cons (n m : Text) (names : List Text) :
    writeNames (n :: m :: names) = writeName n ++ ',' :: ' ' :: writeNames (m :: names) := by
  simp [writeNames, Text.join, List.intercalate_cons_cons]

theorem scans_writeNames {names : List Text} (h : Writable names) :
    Scans (writeNames names) (Names · names) := by
  obtain ⟨hne, h⟩ := h
  induction names with
  | nil => exact absurd rfl hne
  | cons n names ih =>
    intro column rest hr
    have hn := h n List.mem_cons_self
    cases names with
    | nil =>
      obtain ⟨column', hs⟩ := scan_writeName hn (nameEnds_of_wordEnds hr) column
      refine ⟨[⟨.name, n, column⟩], column', ?_, .one rfl⟩
      simpa [writeNames, Text.join] using hs
    | cons m names =>
      have ih := ih (by simp) fun k hk => h k (List.mem_cons_of_mem n hk)
      have hends : nameEnds (',' :: ' ' :: (writeNames (m :: names) ++ rest)) := rfl
      obtain ⟨c₁, hs⟩ := scan_writeName hn hends column
      obtain ⟨c₂, hcomma⟩ := scan_comma c₁ (writeNames (m :: names) ++ rest)
      obtain ⟨ls, c₃, hls, hns⟩ := ih c₂ rest hr
      refine ⟨⟨.name, n, column⟩ :: ⟨.comma, [','], c₁⟩ :: ls, c₃, ?_, ?_⟩
      · rw [writeNames_cons, List.append_assoc, List.cons_append, List.cons_append, hs, hcomma, hls]
        rfl
      · exact .more (l := ⟨.name, n, column⟩) rfl rfl hns

theorem scans_flag (k : Keyword) (b : Bool) :
    Scans (if b then ' ' :: k.text else []) (Flag k · b) := by
  cases b with
  | false => exact scans_nil .absent
  | true =>
    intro column rest hr
    obtain ⟨column', l, hs, hl⟩ := scan_keyword k hr column
    exact ⟨[l], column', hs, .present hl⟩

theorem wordEnds_flag (k : Keyword) (b : Bool) : wordEnds (if b then ' ' :: k.text else []) := by
  cases b <;> rfl

theorem scans_clause (k : Keyword) {names : List Text} (h : Writable names) :
    Scans (' ' :: k.text ++ ' ' :: writeNames names)
      fun ls => ∃ l ms, ls = l :: ms ∧ l.kind = .keyword k ∧ Names ms names := by
  intro column rest hr
  have hends : wordEnds (' ' :: (writeNames names ++ rest)) := rfl
  obtain ⟨column', l, hs, hl⟩ := scan_keyword k hends column
  rw [scan_blank (by decide) column'] at hs
  obtain ⟨ms, column'', hms, hns⟩ := scans_writeNames h (column' + ' '.utf8Size) rest hr
  rw [hms] at hs
  exact ⟨l :: ms, column'', by simpa using hs, l, ms, rfl, hl, hns⟩

def writeAlbums (ordered : Bool) : Option (List Text) → Text
  | some names =>
    (' ' :: Keyword.onAlbums.text ++ ' ' :: writeNames names) ++
      if ordered then ' ' :: Keyword.ordered.text else []
  | none => []

def writeArtists : Option (List Text) → Text
  | some names => ' ' :: Keyword.byArtists.text ++ ' ' :: writeNames names
  | none => []

theorem wordEnds_writeAlbums (ordered : Bool) (albums : Option (List Text)) :
    wordEnds (writeAlbums ordered albums) := by cases albums <;> rfl

theorem wordEnds_writeArtists (artists : Option (List Text)) :
    wordEnds (writeArtists artists) := by cases artists <;> rfl

theorem Selection.render_eq (s : Selection) :
    s.render = writeNames s.titles ++ (writeAlbums s.ordered s.albums ++ writeArtists s.artists) ++
      if s.shuffle then ' ' :: Keyword.shuffle.text else [] := by
  obtain ⟨titles, albums, ordered, artists, shuffle⟩ := s
  have hon : " on ".toList = ' ' :: Keyword.onAlbums.text ++ [' '] := by decide
  have hby : " by ".toList = ' ' :: Keyword.byArtists.text ++ [' '] := by decide
  have hordered : " ordered".toList = ' ' :: Keyword.ordered.text := by decide
  have hshuffle : " shuffle".toList = ' ' :: Keyword.shuffle.text := by decide
  simp only [render, hon, hby, hordered, hshuffle]
  cases albums <;> cases artists <;> simp [writeAlbums, writeArtists]

theorem scans_writeAlbums {names : List Text} (h : Writable names) (ordered : Bool) :
    Scans (writeAlbums ordered (some names)) (OnAlbums · names ordered) := by
  refine (scans_clause .onAlbums h).append (scans_flag .ordered ordered) (wordEnds_flag _ _) ?_
  rintro _ ms ⟨l, ls, rfl, hl, hn⟩ ho
  exact .mk hl hn ho

theorem scans_writeArtists {names : List Text} (h : Writable names) :
    Scans (writeArtists (some names)) (ByArtists · names) := by
  refine (scans_clause .byArtists h).imp ?_
  rintro _ ⟨l, ls, rfl, hl, hn⟩
  exact .mk hl hn

theorem scans_clauses {s : Selection} (h : s.WellFormed) :
    Scans (writeAlbums s.ordered s.albums ++ writeArtists s.artists)
      (Clauses · s.albums s.ordered s.artists) := by
  obtain ⟨titles, albums, ordered, artists, shuffle⟩ := s
  obtain ⟨-, ha, hb, ho⟩ := h
  cases albums with
  | none =>
    obtain rfl : ordered = false := by simpa using ho
    cases artists with
    | none => exact scans_nil .neither
    | some bs => exact (scans_writeArtists (hb bs rfl)).imp fun _ => .artists
  | some ns =>
    have hon := scans_writeAlbums (ha ns rfl) ordered
    cases artists with
    | none =>
      rw [writeArtists, List.append_nil]
      exact hon.imp fun _ => .albums
    | some bs => exact hon.append (scans_writeArtists (hb bs rfl)) rfl fun _ _ => .albumsArtists

theorem scans_render {s : Selection} (h : s.WellFormed) :
    Scans s.render fun ls => ∀ next, Selects next ls s := by
  have hw := wordEnds_append (wordEnds_writeAlbums s.ordered s.albums)
    (wordEnds_writeArtists s.artists)
  have hfront : Scans (writeNames s.titles ++ (writeAlbums s.ordered s.albums ++
      writeArtists s.artists)) fun ls => ∃ ts cs, ls = ts ++ cs ∧ Names ts s.titles ∧
        Clauses cs s.albums s.ordered s.artists :=
    (scans_writeNames h.titles).append (scans_clauses h) hw fun ts cs ht hc => ⟨ts, cs, rfl, ht, hc⟩
  rw [s.render_eq]
  refine hfront.append (scans_flag .shuffle s.shuffle) (wordEnds_flag .shuffle s.shuffle) ?_
  rintro _ ss ⟨ts, cs, rfl, hts, hcs⟩ hss next
  exact .mk (.listed hts) hcs hss

theorem derives_scan_render {q : Query} (h : q.WellFormed) (column : Nat) :
    Derives (scan column q.render) q := by
  induction q generalizing column with
  | last s =>
    obtain ⟨ls, column', hs, hls⟩ := scans_render h column [] rfl
    rw [List.append_nil, scan_nil, List.append_nil] at hs
    rw [Query.render, hs]
    exact .last (hls [])
  | link s link rest ih =>
    obtain ⟨hs, hrest⟩ := h
    obtain ⟨ls, c₁, hs, hls⟩ :=
      scans_render hs column (' ' :: (link.keyword.text ++ ' ' :: rest.render)) rfl
    have hends : wordEnds (' ' :: rest.render) := rfl
    obtain ⟨c₂, l, hk, hl⟩ := scan_keyword link.keyword hends c₁
    rw [hk, scan_blank (by decide) c₂] at hs
    have hr : (Query.link s link rest).render =
        s.render ++ ' ' :: (link.keyword.text ++ ' ' :: rest.render) := by simp [Query.render]
    rw [hr, hs]
    exact .link (hls _) hl (ih hrest _)

theorem Query.parse_render {q : Query} (h : q.WellFormed) : parse q.render = .ok q :=
  parse_of_derives (derives_scan_render h 0)

/-- Writing and reading are inverse on the well-formed queries, and only there; reading gives no
others. -/
theorem Query.parse_render_iff_wellFormed :
    (∀ q, parse q.render = .ok q ↔ q.WellFormed) ∧
      ∀ t q, parse t = .ok q → q.WellFormed ∧ parse q.render = parse t :=
  ⟨fun _ => ⟨wellFormed_of_parse, parse_render⟩, fun _ _ h =>
    ⟨wellFormed_of_parse h, (parse_render (wellFormed_of_parse h)).trans h.symm⟩⟩

end Jukebox
