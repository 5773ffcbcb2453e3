import Mathlib.Data.List.Forall2
import Jukebox.Proofs.Library.Arranged
import Jukebox.Proofs.Library.History
import Jukebox.Proofs.Library.Joined
import Jukebox.Proofs.Path.Relative
import Jukebox.Proofs.Plan.Limits
import Jukebox.Proofs.Query.RoundTrip

/-!
What a query means. It lists the tracks that its selections admit, in the order of the first
selection, and then the tracks of the query after `or`.
-/

set_option autoImplicit false

namespace Jukebox

open Catalogue Lexeme

/-- The tracks that a query lists before its first `or`: those that it admits, each once, by what
they sort by and then as they were added. -/
structure Query.Lists (c : Catalogue) (q : Query) (ts : List TrackRow) : Prop where
  nodup : ts.Nodup
  mem_iff : ∀ t, t ∈ ts ↔ t ∈ c.tracks ∧ q.Admits c t
  sorted : q.head.shuffle = false → ts.Pairwise fun a b =>
    Cell.listLe (q.head.sortsBy c a) (q.head.sortsBy c b) ∧
      (q.head.sortsBy c a = q.head.sortsBy c b → a.id < b.id)

namespace Catalogue

variable {c : Catalogue}

theorem Consistent.tracks_pairwise (h : c.Consistent) : c.tracks.Pairwise (·.id < ·.id) := by
  have hids : (c.tracks.map TrackRow.id).Pairwise (· < ·) := by
    rw [h.tracks.ids]
    exact List.pairwise_lt_range'
  exact List.pairwise_map.1 hids

theorem Consistent.ids_nodup (h : c.Consistent) : (c.tracks.map TrackRow.id).Nodup :=
  List.pairwise_map.2 (h.tracks_pairwise.imp Nat.ne_of_lt)

theorem Consistent.found_ids_nodup (h : c.Consistent) (seed : Nat) (p : Plan) :
    ((c.found seed p).map TrackRow.id).Nodup := by
  have hperm := (c.found_perm_finds seed p).map TrackRow.id
  exact hperm.nodup_iff.2 (h.ids_nodup.sublist (List.filter_sublist.map _))

theorem Consistent.found_pairwise (h : c.Consistent) (seed : Nat) {p : Plan} {ks : List Key}
    (hp : p.top.order = .keys ks) :
    (c.found seed p).Pairwise (TrackRow.Before (c.sortKey p ks)) :=
  c.arrange_pairwise seed hp (h.tracks_pairwise.filter (c.finds p))

theorem found_lists (h : c.Consistent) {q : Query} (hq : q.WellFormed) (seed : Nat) :
    q.Lists c (c.found seed q.firstPlan) := by
  have hmem (t : TrackRow) : t ∈ c.found seed q.firstPlan ↔ t ∈ c.tracks ∧ q.Admits c t := by
    rw [(c.found_perm_finds seed q.firstPlan).mem_iff, List.mem_filter, Query.finds_firstPlan hq]
  have hnodup : (c.found seed q.firstPlan).Nodup := (h.found_ids_nodup seed q.firstPlan).of_map _
  refine ⟨hnodup, hmem, fun hshuffle => ?_⟩
  have horder : q.firstPlan.top.order =
      .keys (q.head.narrowings.flatMap Narrowing.keys ++ q.head.titleKeys) := by
    rw [Query.top_firstPlan, Selection.level, hshuffle]
    rfl
  have hsorted := (h.found_pairwise seed horder).and hnodup
  refine hsorted.imp_of_mem ?_
  rintro a b ha hb ⟨⟨hle, htie⟩, hne⟩
  obtain ⟨ha, hqa⟩ := (hmem a).1 ha
  obtain ⟨hb, hqb⟩ := (hmem b).1 hb
  rw [Query.sortKey_firstPlan hq hqa, Query.sortKey_firstPlan hq hqb] at hle htie
  refine ⟨hle, fun he => Nat.lt_of_le_of_ne (htie he) fun hid => hne ?_⟩
  have hsame := h.tracks.filter_id ha
  rw [hid, h.tracks.filter_id hb] at hsame
  exact (List.singleton_inj.1 hsame).symm

end Catalogue

namespace Library

theorem paths_singleton {lib : Library} {p : Plan} {t : TrackRow}
    (h : lib.catalogue.tracks.filter (lib.catalogue.finds p) = [t]) (seed : Nat) :
    lib.paths seed p = [lib.locate t.path] := by
  have hperm := lib.catalogue.found_perm_finds seed p
  rw [h, List.perm_singleton] at hperm
  rw [paths, hperm, List.map_singleton]

def Answers (lib : Library) (q : Query) (paths : List OsText) : Prop :=
  ∃ ts, q.Lists lib.catalogue ts ∧ paths = ts.map fun t => lib.locate t.path

/-- What a whole query lists: the answers of the queries between its links by `or`, one after the
other. -/
def AnswersAll (lib : Library) (q : Query) (answers : List (List OsText)) (paths : List OsText) :
    Prop :=
  paths = answers.flatten ∧ List.Forall₂ lib.Answers q.orChain answers

variable {home : OsText} {ts : List Track}

/-- No two tracks that are kept whole are the same file. -/
theorem Records.path_inj {given : List Addition} {lib : Library} (h : Records home ts given lib)
    (hkeeps : KeepsAll home ts) {a b : TrackRow} (ha : a ∈ lib.catalogue.tracks)
    (hb : b ∈ lib.catalogue.tracks) (hab : lib.locate a.path = lib.locate b.path) : a = b := by
  obtain ⟨_, t, ht, hat, -⟩ := h.row a ha
  obtain ⟨_, u, hu, hbu, -⟩ := h.row b hb
  rw [locate, locate, h.home_eq, hat, hbu] at hab
  have hpath : a.path = b.path := by
    rw [hat, hbu]
    exact storedPath_inj (hkeeps t (List.mem_of_getElem? ht.1))
      (hkeeps u (List.mem_of_getElem? hu.1)) hab
  exact List.inj_on_of_nodup_map h.consistent.tracks.texts ha hb hpath

theorem found_lists_after (home : OsText) (ts : List Track) {q : Query} (hq : q.WellFormed)
    (seed : Nat) :
    q.Lists (after home ts).catalogue ((after home ts).catalogue.found seed q.firstPlan) :=
  found_lists (records home ts).consistent hq seed

theorem paths_nodup (hkeeps : KeepsAll home ts) {q : Query} (hq : q.WellFormed) (seed : Nat) :
    ((after home ts).paths seed q.firstPlan).Nodup := by
  have hlists := found_lists_after home ts hq seed
  refine List.Nodup.map_on ?_ hlists.nodup
  intro a ha b hb hab
  exact (records home ts).path_inj hkeeps
    ((hlists.mem_iff a).1 ha).1 ((hlists.mem_iff b).1 hb).1 hab

theorem paths_answerAll (home : OsText) (ts : List Track) {q : Query} (hq : q.WellFormed)
    (seed : Nat) :
    (after home ts).AnswersAll q (q.plans.map ((after home ts).paths seed))
      (q.plans.map ((after home ts).paths seed)).flatten := by
  refine ⟨rfl, ?_⟩
  rw [Query.plans_eq, List.map_map, List.forall₂_map_right_iff, List.forall₂_same]
  exact fun n hn => ⟨_, found_lists_after home ts (hq.of_mem_orChain hn) seed, rfl⟩

/-- A text that reads as a query selects what the query lists. This fails only where a statement
of the query is larger than the database takes. A track is listed once, and so is its path where
all paths are kept whole. -/
theorem select_answers (home : OsText) (ts : List Track) (seed : Nat) {t : Text} {q : Query}
    (h : Query.parse t = .ok q) :
    ((∀ n ∈ q.orChain, n.firstPlan.WithinLimits) →
      ∃ paths, (after home ts).select seed t = .ok paths) ∧
    (∀ paths, (after home ts).select seed t = .ok paths → ∃ answers,
      (after home ts).AnswersAll q answers paths ∧
      (KeepsAll home ts → ∀ answer ∈ answers, answer.Nodup)) ∧
    ∀ e, (after home ts).select seed t = .error e → ∃ cause, e = .statement cause ∧
      cause ≠ .unsound ∧ ∃ n ∈ q.orChain, ¬n.firstPlan.WithinLimits := by
  have hq := Query.wellFormed_of_parse h
  have hsound (n : Query) (hn : n ∈ q.orChain) : n.firstPlan.sound :=
    Query.sound_firstPlan (hq.of_mem_orChain hn)
  rw [select_eq h (after home ts) seed]
  cases hf : q.plans.findSome? (after home ts).failure? with
  | none =>
    refine ⟨fun _ => ⟨_, rfl⟩, ?_, nofun⟩
    rintro paths ⟨⟩
    refine ⟨_, paths_answerAll home ts hq seed, fun hkeeps => ?_⟩
    rw [Query.plans_eq, List.map_map, List.forall_mem_map]
    exact fun n hn => paths_nodup hkeeps (hq.of_mem_orChain hn) seed
  | some cause =>
    rw [Query.plans_eq, List.findSome?_map] at hf
    obtain ⟨n, hn, hcause⟩ := List.exists_of_findSome?_eq_some hf
    have hlimits : ¬n.firstPlan.WithinLimits := fun hl => by
      have hkeys := Nat.le_trans n.keyCount_firstPlan_le (by decide : 7 ≤ Plan.maxKeys)
      rw [Function.comp_apply, failure?_eq_none (hsound n hn) hl hkeys] at hcause
      cases hcause
    refine ⟨fun hall => absurd (hall n hn) hlimits, nofun, ?_⟩
    rintro e ⟨⟩
    refine ⟨cause, rfl, ?_, n, hn, hlimits⟩
    rintro rfl
    exact failure?_ne_unsound (hsound n hn) hcause

theorem writable_replicate (n : Nat) : Writable (List.replicate (n + 1) ['a']) := by
  refine ⟨List.cons_ne_nil _ _, fun m hm => ?_⟩
  rw [List.eq_of_mem_replicate hm]
  exact .single (by decide)

theorem wellFormed_ofTitles {names : List Text} (h : Writable names) :
    (Selection.ofTitles names).WellFormed := ⟨h, nofun, nofun, nofun⟩

theorem select_answers_one_title :
    let t : Track := ⟨Text.utf8 ['x'], ['a'], none, none, []⟩
    let q : Query := .last (.ofTitles [['a']])
    Query.parse ['a'] = .ok q ∧
      ∃ paths answers, (after music [t]).select 0 ['a'] = .ok paths ∧
        (after music [t]).AnswersAll q answers paths ∧ ∀ answer ∈ answers, answer.Nodup := by
  intro t q
  have hparse : Query.parse q.render = .ok q :=
    Query.parse_render (wellFormed_ofTitles (writable_replicate 0))
  have hlimits : ∀ n ∈ q.orChain, n.firstPlan.WithinLimits := by
    intro n hn
    obtain rfl := List.mem_singleton.1 hn
    exact ⟨by decide, by decide, by decide, by decide, by decide⟩
  have hkeeps : KeepsAll music [t] := fun u hu => by
    obtain rfl := List.mem_singleton.1 hu
    exact keepsWhole_of_isText (OsText.isText_utf8 ['x'])
  obtain ⟨hok, hall, -⟩ := select_answers music [t] 0 hparse
  obtain ⟨paths, hpaths⟩ := hok hlimits
  obtain ⟨answers, hanswers, hnodup⟩ := hall paths hpaths
  exact ⟨hparse, paths, answers, hpaths, hanswers, hnodup hkeeps⟩

theorem level_ofTitles {names : List Text} (hne : names ≠ []) (hall : matchAll ∉ names) :
    (Selection.ofTitles names).level =
      ⟨[], [⟨.title, names.map Pattern.ofText⟩],
        .keys [.rank .title (names.map Pattern.ofText), .column .title]⟩ := by
  have hfilter : (Selection.ofTitles names).titles.filter (· ≠ matchAll) = names :=
    List.filter_eq_self.2 fun n hn => decide_eq_true fun he => hall (he ▸ hn)
  have htitles : (Selection.ofTitles names).titleFilters =
      [⟨.title, names.map Pattern.ofText⟩] := by
    unfold Selection.titleFilters
    rw [hfilter]
    cases names with
    | nil => exact absurd rfl hne
    | cons n names => rfl
  rw [Selection.level, htitles]
  rfl

theorem depth_ofTitles {names : List Text} (hne : names ≠ []) (hall : matchAll ∉ names) :
    (Query.last (.ofTitles names)).firstPlan.depth = names.length + 2 := by
  rw [Query.firstPlan, Plan.depth, level_ofTitles hne hall]
  simp [chainDepth, Filter.depth]

theorem failure?_ofTitles_tooDeep (lib : Library) {names : List Text} (h : Writable names)
    (hall : matchAll ∉ names) (hlong : 998 < names.length) :
    lib.failure? (Query.last (.ofTitles names)).firstPlan = some .tooDeep := by
  have hq : (Query.last (.ofTitles names)).WellFormed := wellFormed_ofTitles h
  have hdepth : Plan.maxDepth < (Query.last (.ofTitles names)).firstPlan.depth := by
    rw [depth_ofTitles h.1 hall, Plan.maxDepth]
    omega
  rw [failure?, Plan.refusal?, Query.sound_firstPlan hq, if_neg (by simp), if_pos hdepth]
  rfl

theorem select_ofTitles_tooDeep (lib : Library) (seed : Nat) {names : List Text}
    (h : Writable names) (hall : matchAll ∉ names) (hlong : 998 < names.length) :
    lib.select seed (Query.last (.ofTitles names)).render = .error (.statement .tooDeep) := by
  have hq : (Query.last (.ofTitles names)).WellFormed := wellFormed_ofTitles h
  rw [select_eq (Query.parse_render hq), Query.plans, List.findSome?_cons,
    failure?_ofTitles_tooDeep lib h hall hlong]

theorem matchAll_not_mem_replicate (n : Nat) : matchAll ∉ List.replicate n ['a'] := fun hm =>
  absurd (List.eq_of_mem_replicate hm) (by decide)

/-- A long enough list of titles selects nothing, though it reads as a query. -/
theorem select_fails_on_many_titles :
    let q := Query.last (.ofTitles (List.replicate 1200 ['a']))
    let lib := after music [⟨Text.utf8 ['x'], ['a'], none, none, []⟩]
    Query.parse q.render = .ok q ∧
      ¬∃ paths answers, lib.select 0 q.render = .ok paths ∧ lib.AnswersAll q answers paths := by
  intro q lib
  have hwritable : Writable (List.replicate 1200 ['a']) := writable_replicate 1199
  have hall := matchAll_not_mem_replicate 1200
  refine ⟨Query.parse_render (wellFormed_ofTitles hwritable), ?_⟩
  rintro ⟨paths, answers, hpaths, -⟩
  have hfail := select_ofTitles_tooDeep lib 0 hwritable hall (by rw [List.length_replicate]; decide)
  rw [hfail] at hpaths
  cases hpaths

end Library

end Jukebox
