import Jukebox.Proofs.Query.Reach
import Jukebox.Proofs.Query.RoundTrip

/-!
Where a text fails to be a query, and what could stand there. Only the kinds of its lexemes decide:
it fails at the first lexeme with which no query begins that way.
-/

set_option autoImplicit false

namespace Jukebox

structure Selection.SameClauses (s t : Selection) : Prop where
  albums : s.albums = none ↔ t.albums = none
  artists : s.artists = none ↔ t.artists = none

theorem Selection.SameClauses.addName {s t : Selection} (h : SameClauses s t) (name name' : Text)
    (list : NameList) : SameClauses (s.addName name list) (t.addName name' list) := by
  obtain ⟨ha, hb⟩ := h
  cases list <;> constructor <;> simpa [Selection.addName]

theorem Selection.SameClauses.openList {s t : Selection} (h : SameClauses s t) (list : NameList) :
    SameClauses (s.openList list) (t.openList list) := by
  obtain ⟨ha, hb⟩ := h
  cases list <;> constructor <;> simp [Selection.openList, ha, hb]

namespace Place

/-- Places that differ in no more than the name that was read last. -/
inductive Like : Place → Place → Prop where
  | start {linked linked'} : Like (.start linked) (.start linked')
  | wanting {list} : Like (.wanting list) (.wanting list)
  | named {list name name'} : Like (.named list name) (.named list name')
  | ordered : Like .ordered .ordered
  | shuffled : Like .shuffled .shuffled

variable {p p' q : Place} {s s' t : Selection}

theorem Like.mayEnd (h : Like p q) : p.mayEnd = q.mayEnd := by cases h <;> rfl

theorem Like.before (h : Like p q) :
    p.beforeAlbums = q.beforeAlbums ∧ p.beforeArtists = q.beforeArtists := by
  cases h with
  | @named list _ _ => cases list <;> exact ⟨rfl, rfl⟩
  | start | wanting | ordered | shuffled => exact ⟨rfl, rfl⟩

theorem Like.ne_shuffled (h : Like p q) (hp : p ≠ .shuffled) : q ≠ .shuffled := by
  cases h with
  | shuffled => exact absurd rfl hp
  | start | wanting | named | ordered => nofun

structure Alike (p q : Place) (s t : Selection) : Prop where
  place : Like p q
  clauses : s.SameClauses t

/-- Lexemes of one kind take readers that are alike to places where they are alike again. -/
theorem Alike.step {l m : Lexeme} (h : Alike p q s t) (hk : m.kind = l.kind)
    (hl : Step l p s p' s') : ∃ q' t', Step m q t q' t' ∧ Alike p' q' s' t' := by
  obtain ⟨hp, hs⟩ := h
  cases hl with
  | title hl =>
    cases hp
    exact ⟨_, _, .title (hk.trans hl), .named, hs.addName l.text m.text .titles⟩
  | impliedAlbums hl =>
    cases hp
    exact ⟨_, _, .impliedAlbums (hk.trans hl), .wanting,
      (hs.addName matchAll matchAll .titles).openList .albums⟩
  | impliedArtists hl =>
    cases hp
    exact ⟨_, _, .impliedArtists (hk.trans hl), .wanting,
      (hs.addName matchAll matchAll .titles).openList .artists⟩
  | @name list _ hl =>
    cases hp
    exact ⟨_, _, .name (hk.trans hl), .named, hs.addName l.text m.text list⟩
  | comma hl =>
    cases hp
    exact ⟨_, _, .comma (hk.trans hl), .wanting, hs⟩
  | albums hl hpa hsa =>
    exact ⟨_, _, .albums (hk.trans hl) (hp.before.1 ▸ hpa) (hs.albums.1 hsa), .wanting,
      hs.openList .albums⟩
  | artists hl hpa hsa =>
    exact ⟨_, _, .artists (hk.trans hl) (hp.before.2 ▸ hpa) (hs.artists.1 hsa), .wanting,
      hs.openList .artists⟩
  | ordered hl =>
    cases hp
    exact ⟨_, _, .ordered (hk.trans hl), .ordered, hs.albums, hs.artists⟩
  | shuffle hl hpe hne =>
    exact ⟨_, _, .shuffle (hk.trans hl) (hp.mayEnd ▸ hpe) (hp.ne_shuffled hne), .shuffled,
      hs.albums, hs.artists⟩

theorem Alike.reaches {ls ms : List Lexeme} (h : Alike p q s t)
    (hk : ms.map Lexeme.kind = ls.map Lexeme.kind) (hr : Reaches p s ls p' s') :
    ∃ q' t', Reaches q t ms q' t' ∧ Alike p' q' s' t' := by
  induction hr generalizing q t ms with
  | nil =>
    obtain rfl : ms = [] := by simpa using hk
    exact ⟨q, t, .nil, h⟩
  | step hl _ ih =>
    obtain ⟨m, ms, rfl, hm, hms⟩ := List.map_eq_cons_iff.1 hk
    obtain ⟨q', t', hm, h'⟩ := h.step hm hl
    obtain ⟨q'', t'', hr, h''⟩ := ih h' hms
    exact ⟨q'', t'', .step hm hr, h''⟩
  | link hp hl _ ih =>
    obtain ⟨m, ms, rfl, hm, hms⟩ := List.map_eq_cons_iff.1 hk
    -- After a link both readers start anew, with nothing selected yet.
    obtain ⟨q', t', hr, h'⟩ := ih ⟨.start, Iff.rfl, Iff.rfl⟩ hms
    exact ⟨q', t', .link (h.place.mayEnd ▸ hp) (hm.trans hl) hr, h'⟩

theorem Alike.refl (p : Place) (s : Selection) : Alike p p s s := by
  refine ⟨?_, Iff.rfl, Iff.rfl⟩
  cases p <;> constructor

/-- A lexeme may stand at a place if its kind is asked for there, or if it opens a clause at the
start of a selection. -/
theorem move_ne_fail_iff {l : Lexeme} :
    p.move s l ≠ .fail ↔ l.kind ∈ p.expected s ∨ (∃ linked, p = .start linked) ∧
      (l.kind = .keyword .onAlbums ∨ l.kind = .keyword .byArtists) := by
  cases p with
  | start linked =>
    obtain ⟨kind, text, column⟩ := l
    cases kind with
    | keyword k => cases k <;> simp [move, expected, mayEnd, follow]
    | name | comma | invalid => simp [move, expected]
  | wanting list =>
    obtain ⟨kind, text, column⟩ := l
    cases kind <;> simp [move, expected, mayEnd]
  | named | ordered | shuffled =>
    rw [move_ne_fail_of_mayEnd rfl]
    simp

theorem Step.valid {l : Lexeme} (h : Step l p s p' s') : l.kind ≠ .invalid := by
  cases h <;> simp [*]

theorem Reaches.valid {ls : List Lexeme} (h : Reaches p s ls p' s') :
    .invalid ∉ ls.map Lexeme.kind := by
  induction h with
  | nil => simp
  | step hl _ ih => simpa [Ne.symm hl.valid] using ih
  | link _ hl _ ih => simpa [hl] using ih

theorem exists_reaches_mayEnd (p : Place) (s : Selection) :
    ∃ ls p' s', Reaches p s ls p' s' ∧ p'.mayEnd := by
  have hname : (⟨.name, [], 0⟩ : Lexeme).kind = .name := rfl
  cases p with
  | start linked => exact ⟨_, _, _, .step (.title hname) .nil, rfl⟩
  | wanting list => exact ⟨_, _, _, .step (.name hname) .nil, rfl⟩
  | named | ordered | shuffled => exact ⟨[], _, _, .nil, rfl⟩

end Place

open Lexeme Place Text

theorem scans_kind {k : Kind} (h : k ≠ .invalid) :
    ∃ w, wordEnds w ∧ Scans w fun ls => ls.map Lexeme.kind = [k] := by
  cases k with
  | name =>
    refine ⟨[' ', 'a'], rfl, fun column rest hr => ?_⟩
    have hread : read ('a' :: rest) = ⟨.name, ['a'], ['a'], rest⟩ :=
      read_name (.single (by decide)) (nameEnds_of_wordEnds hr) fun _ => by decide
    have hscan := scan_of_read rfl hread (column + ' '.utf8Size)
    rw [List.cons_append, scan_blank (by decide)]
    exact ⟨[_], _, hscan, rfl⟩
  | keyword k =>
    refine ⟨' ' :: k.text, rfl, fun column rest hr => ?_⟩
    obtain ⟨column', l, hl, hk⟩ := scan_keyword k hr column
    exact ⟨[l], column', hl, congrArg (fun k => [k]) hk⟩
  | comma =>
    refine ⟨[' ', ','], rfl, fun column rest _ => ?_⟩
    have hscan := scan_of_read rfl (read_comma rest) (column + ' '.utf8Size)
    rw [List.cons_append, scan_blank (by decide)]
    exact ⟨[_], _, hscan, rfl⟩
  | invalid => exact absurd rfl h

theorem exists_lexemes_of_kinds {ks : List Kind} (h : .invalid ∉ ks) :
    ∃ t : Text, t.lexemes.map Lexeme.kind = ks := by
  have hscans : ∃ t, wordEnds t ∧ Scans t fun ls => ls.map Lexeme.kind = ks := by
    induction ks with
    | nil => exact ⟨[], rfl, scans_nil rfl⟩
    | cons k ks ih =>
      simp only [List.mem_cons, not_or] at h
      obtain ⟨w, hw, hk⟩ := scans_kind (Ne.symm h.1)
      obtain ⟨t, ht, hks⟩ := ih h.2
      refine ⟨w ++ t, wordEnds_append hw ht, hk.append hks ht fun ls ms hl hm => ?_⟩
      rw [List.map_append, hl, hm, List.singleton_append]
  obtain ⟨t, -, ht⟩ := hscans
  obtain ⟨ls, column, hls, hks⟩ := ht 0 [] rfl
  rw [List.append_nil, scan_nil, List.append_nil] at hls
  exact ⟨t, by rw [lexemes, hls, hks]⟩

namespace Query

/-- The kinds of lexeme of a text that is a query. -/
def Complete (ks : List Kind) : Prop := ∃ t q, parse t = .ok q ∧ t.lexemes.map Lexeme.kind = ks

/-- The kinds with which some query begins. -/
def Viable (ks : List Kind) : Prop := ∃ t q, parse t = .ok q ∧ ks <+: t.lexemes.map Lexeme.kind

theorem exists_reaches_of_parse {t : Text} {q : Query} (h : parse t = .ok q) :
    ∃ p s, Reaches (.start false) .empty t.lexemes p s ∧ p.mayEnd := by
  have ho : offending? t = none := by rw [offending?, h]
  obtain ⟨p, s, hr⟩ := exists_reaches_lexemes ho
  refine ⟨p, s, hr, ?_⟩
  by_contra hp
  have hparse := parse_of_reaches hr
  rw [if_neg hp, h] at hparse
  cases hparse

theorem complete_iff {ls : List Lexeme} :
    Complete (ls.map Lexeme.kind) ↔ ∃ p s, Reaches (.start false) .empty ls p s ∧ p.mayEnd := by
  constructor
  · intro ⟨t, q, hq, hk⟩
    obtain ⟨p, s, hr, hp⟩ := exists_reaches_of_parse hq
    obtain ⟨p', s', hr', ha⟩ := (Alike.refl _ _).reaches hk.symm hr
    exact ⟨p', s', hr', ha.place.mayEnd ▸ hp⟩
  · intro ⟨p, s, hr, hp⟩
    obtain ⟨t, ht⟩ := exists_lexemes_of_kinds hr.valid
    obtain ⟨p', s', hr', ha⟩ := (Alike.refl _ _).reaches ht hr
    have hparse := parse_of_reaches hr'
    rw [← ha.place.mayEnd, if_pos hp] at hparse
    obtain ⟨q, hq⟩ := hparse
    exact ⟨t, q, hq, ht⟩

theorem viable_iff {ls : List Lexeme} :
    Viable (ls.map Lexeme.kind) ↔ ∃ p s, Reaches (.start false) .empty ls p s := by
  constructor
  · intro ⟨t, q, hq, hk⟩
    obtain ⟨p, s, hr, -⟩ := exists_reaches_of_parse hq
    obtain ⟨ms, ⟨rest, hms⟩, hk⟩ := List.prefix_map_iff.1 hk
    rw [← hms] at hr
    obtain ⟨p', s', hr⟩ := hr.exists_of_append
    obtain ⟨p'', s'', hr', -⟩ := (Alike.refl _ _).reaches hk hr
    exact ⟨p'', s'', hr'⟩
  · intro ⟨p, s, hr⟩
    obtain ⟨ms, p', s', hms, hp⟩ := exists_reaches_mayEnd p s
    obtain ⟨t, q, hq, hk⟩ := complete_iff.2 ⟨p', s', hr.trans hms, hp⟩
    refine ⟨t, q, hq, ?_⟩
    rw [hk, List.map_append]
    exact List.prefix_append _ _

theorem viable_concat_iff {front : List Lexeme} {p : Place} {s : Selection}
    (h : Reaches (.start false) .empty front p s) (l : Lexeme) :
    Viable ((front ++ [l]).map Lexeme.kind) ↔ p.move s l ≠ .fail := by
  rw [viable_iff]
  constructor
  · intro ⟨p', s', hr⟩
    exact (h.of_append hr).not_fail
  · intro hl
    obtain ⟨p', s', hr⟩ := (exists_reaches_or_fail p s l).resolve_right hl
    exact ⟨p', s', h.trans hr⟩

/-- The kinds after which a query, or the query after a link, is about to start. -/
def AtStart (ks : List Kind) : Prop :=
  ks = [] ∨ ks.getLast? = some (.keyword .and) ∨ ks.getLast? = some (.keyword .or)

/-- What is asked for after these kinds: all with which a query goes on. At a start that is a name
alone, though just `on` and `by` go on there too. -/
structure Expects (ks expected : List Kind) : Prop where
  atStart : AtStart ks → expected = [.name] ∧ ∀ k, Viable (ks ++ [k]) ↔
    k = .name ∨ k = .keyword .onAlbums ∨ k = .keyword .byArtists
  inside : ¬AtStart ks → ∀ k, k ∈ expected ↔ Viable (ks ++ [k])

theorem atStart_iff {ls : List Lexeme} {p : Place} (h : Ends ls p) :
    AtStart (ls.map Lexeme.kind) ↔ ∃ linked, p = .start linked := by
  cases h with
  | nil => simp [AtStart]
  | @link _ _ link hl => cases link <;> simp [AtStart, hl, Link.keyword]
  | albums hl | artists hl | name hl | comma hl | ordered hl | shuffled hl => simp [AtStart, hl]

theorem expects {front : List Lexeme} {p : Place} {s : Selection}
    (h : Reaches (.start false) .empty front p s) :
    Expects (front.map Lexeme.kind) (ParseError.kindSet (p.expected s)) := by
  have hstart := atStart_iff h.ends
  have hviable (k : Kind) : Viable (front.map Lexeme.kind ++ [k]) ↔ k ∈ p.expected s ∨
      (∃ linked, p = .start linked) ∧ (k = .keyword .onAlbums ∨ k = .keyword .byArtists) := by
    have hk := viable_concat_iff h ⟨k, [], 0⟩
    rw [move_ne_fail_iff, List.map_append] at hk
    exact hk
  constructor
  · intro hs
    obtain ⟨linked, rfl⟩ := hstart.1 hs
    refine ⟨rfl, fun k => ?_⟩
    rw [hviable]
    simp [expected]
  · intro hs k
    rw [hstart] at hs
    rw [ParseError.mem_kindSet, hviable]
    simp [hs]

theorem error_lexeme_iff {t : Text} {front rest : List Lexeme} {l : Lexeme}
    (ht : t.lexemes = front ++ l :: rest) :
    (∃ e, parse t = .error e ∧ e.lexeme = some l) ↔
      Viable (front.map Lexeme.kind) ∧ ¬Viable ((front ++ [l]).map Lexeme.kind) := by
  constructor
  · intro ⟨e, he, hl⟩
    have ho : offending? t = some l := (offending?_of_error he).trans hl
    obtain ⟨_, p, s, -, h, hf⟩ := exists_passed ho
    rw [passed_eq ho ht] at h
    exact ⟨viable_iff.2 ⟨p, s, h⟩, fun hv => (viable_concat_iff h l).1 hv hf⟩
  · intro ⟨hv, hn⟩
    obtain ⟨p, s, h⟩ := viable_iff.1 hv
    have hf : p.move s l = .fail := by
      by_contra hf
      exact hn ((viable_concat_iff h l).2 hf)
    exact ⟨_, parse_of_fail ht h hf, rfl⟩

theorem error_end_iff {t : Text} :
    (∃ e, parse t = .error e ∧ e.lexeme = none) ↔
      Viable (t.lexemes.map Lexeme.kind) ∧ ¬Complete (t.lexemes.map Lexeme.kind) := by
  constructor
  · intro ⟨e, he, hl⟩
    refine ⟨viable_iff.2 (exists_reaches_lexemes ((offending?_of_error he).trans hl)), ?_⟩
    intro hc
    obtain ⟨p, s, h, hp⟩ := complete_iff.1 hc
    have hparse := parse_of_reaches h
    rw [if_pos hp, he] at hparse
    obtain ⟨q, hq⟩ := hparse
    cases hq
  · intro ⟨hv, hn⟩
    obtain ⟨p, s, h⟩ := viable_iff.1 hv
    have hp : ¬p.mayEnd := fun hp => hn (complete_iff.2 ⟨p, s, h, hp⟩)
    have hparse := parse_of_reaches h
    rw [if_neg hp] at hparse
    exact ⟨_, hparse, rfl⟩

theorem expects_of_error {t : Text} {e : ParseError} (he : parse t = .error e) :
    Expects ((passed t).map Lexeme.kind) e.expected := by
  cases ho : offending? t with
  | some l =>
    obtain ⟨rest, p, s, ht, h, hf⟩ := exists_passed ho
    cases he.symm.trans (parse_of_fail ht h hf)
    exact expects h
  | none =>
    obtain ⟨p, s, h⟩ := exists_reaches_lexemes ho
    have hparse := parse_of_reaches h
    rw [he] at hparse
    split at hparse
    · obtain ⟨q, hq⟩ := hparse
      cases hq
    · cases hparse
      rw [passed_of_none ho]
      exact expects h

theorem error_of_prefix {t u : Text} {e : ParseError} {l : Lexeme} (he : parse t = .error e)
    (hl : e.lexeme = some l) (hu : passed t ++ [l] <+: u.lexemes) :
    ∃ e', parse u = .error e' ∧ e'.lexeme = some l ∧ e'.expected = e.expected := by
  obtain ⟨rest, p, s, ht, h, hf⟩ := exists_passed ((offending?_of_error he).trans hl)
  obtain ⟨more, hmore⟩ := hu
  rw [List.append_assoc] at hmore
  cases he.symm.trans (parse_of_fail ht h hf)
  exact ⟨_, parse_of_fail hmore.symm h hf, rfl, rfl⟩

/-- A text fails to be a query at its first lexeme with which no query begins that way, or at its
end if it is no whole query. What is asked for there is what could go on, and nothing after the
lexeme changes that. -/
theorem error_is_earliest (t : Text) :
    (∀ front l rest, t.lexemes = front ++ l :: rest →
      ((∃ e, parse t = .error e ∧ e.lexeme = some l) ↔
        Viable (front.map Lexeme.kind) ∧ ¬Viable ((front ++ [l]).map Lexeme.kind))) ∧
    ((∃ e, parse t = .error e ∧ e.lexeme = none) ↔
      Viable (t.lexemes.map Lexeme.kind) ∧ ¬Complete (t.lexemes.map Lexeme.kind)) ∧
    (∀ e, parse t = .error e → Expects ((passed t).map Lexeme.kind) e.expected) ∧
    ∀ e l u, parse t = .error e → e.lexeme = some l → passed t ++ [l] <+: u.lexemes →
      ∃ e', parse u = .error e' ∧ e'.lexeme = some l ∧ e'.expected = e.expected :=
  ⟨fun _ _ _ => error_lexeme_iff, error_end_iff, fun _ => expects_of_error,
    fun _ _ _ => error_of_prefix⟩

end Query

end Jukebox
