import Jukebox.Proofs.Library.Case
import Jukebox.Proofs.Library.Meaning

/-!
What the answer to a query does not depend on. Which tracks a selection finds is decided by the
names that it lists, in whatever order, number and case; below an `and` nothing else about it
matters.
-/

set_option autoImplicit false

namespace Jukebox

open Catalogue Lexeme

def SameNames (names names' : List Text) : Prop :=
  ∀ n, n ∈ names.map Text.fold ↔ n ∈ names'.map Text.fold

/-- The selections list the same names for titles, albums and artists. -/
structure Selection.Resembles (s s' : Selection) : Prop where
  titles : SameNames s.titles s'.titles
  albums : Option.Rel SameNames s.albums s'.albums
  artists : Option.Rel SameNames s.artists s'.artists

namespace Query

/-- The queries have the same links between selections that list the same names. -/
inductive Resembles : Query → Query → Prop where
  | last {s s' : Selection} (h : s.Resembles s') : Resembles (.last s) (.last s')
  | link {s s' : Selection} {rest rest' : Query} (l : Link) (h : s.Resembles s')
      (hrest : Resembles rest rest') : Resembles (.link s l rest) (.link s' l rest')

/-- The queries differ in the case of letters, and otherwise only below an `and`. -/
inductive SortsLike : Query → Query → Prop where
  | last {s s' : Selection} (h : s.fold = s'.fold) : SortsLike (.last s) (.last s')
  | and {s s' : Selection} {rest rest' : Query} (h : s.fold = s'.fold)
      (hrest : Resembles rest rest') : SortsLike (.link s .and rest) (.link s' .and rest')
  | or {s s' : Selection} {rest rest' : Query} (h : s.fold = s'.fold)
      (hrest : SortsLike rest rest') : SortsLike (.link s .or rest) (.link s' .or rest')

end Query

namespace SameNames

variable {names names' : List Text}

theorem symm (h : SameNames names names') : SameNames names' names := fun n => (h n).symm

theorem of_fold_eq (h : names.map Text.fold = names'.map Text.fold) : SameNames names names' :=
  fun n => by rw [h]

theorem matchAll_mem_iff (h : SameNames names names') : matchAll ∈ names ↔ matchAll ∈ names' := by
  rw [← mem_fold_matchAll, h matchAll, mem_fold_matchAll]

theorem filter_matchAll (h : SameNames names names') :
    SameNames (names.filter (· ≠ matchAll)) (names'.filter (· ≠ matchAll)) := by
  have hfilter (ns : List Text) (n : Text) :
      n ∈ (ns.filter (· ≠ matchAll)).map Text.fold ↔ n ∈ ns.map Text.fold ∧ n ≠ matchAll := by
    simp only [List.mem_map, List.mem_filter, decide_eq_true_eq]
    constructor
    · rintro ⟨m, ⟨hm, hne⟩, rfl⟩
      exact ⟨⟨m, hm, rfl⟩, mt fold_eq_matchAll_iff.1 hne⟩
    · rintro ⟨⟨m, hm, rfl⟩, hne⟩
      exact ⟨m, ⟨hm, mt fold_eq_matchAll_iff.2 hne⟩, rfl⟩
  intro n
  rw [hfilter, hfilter, h n]

end SameNames

theorem admitted_fold (names : List Text) (value : Text) :
    admitted (names.map Text.fold) value = admitted names value := by
  simp [admitted, List.any_map, Function.comp_def, Pattern.ofText_fold]

theorem rank_fold (names : List Text) (value : Text) :
    rank (names.map Text.fold) value = rank names value := by
  simp [rank, List.findIdx_map, Function.comp_def, Pattern.ofText_fold]

theorem SameNames.admitted {names names' : List Text} (h : SameNames names names') (value : Text) :
    admitted names value = admitted names' value := by
  rw [← admitted_fold, ← admitted_fold names', Bool.eq_iff_iff, Jukebox.admitted, Jukebox.admitted,
    List.any_eq_true, List.any_eq_true]
  exact exists_congr fun n => and_congr_left fun _ => h n

theorem exists_of_rel_some {names? : Option (List Text)} {names' : List Text}
    (h : Option.Rel SameNames names? (some names')) :
    ∃ names, names? = some names ∧ SameNames names names' := by
  cases h with
  | some h => exact ⟨_, rfl, h⟩

theorem asked?_rel {names? names'? : Option (List Text)} (h : Option.Rel SameNames names? names'?) :
    Option.Rel SameNames (asked? names?) (asked? names'?) := by
  cases h with
  | none => exact .none
  | @some names names' h =>
    by_cases hm : matchAll ∈ names
    · have hm' := h.matchAll_mem_iff.1 hm
      simp [asked?, Option.filter, hm, hm']
    · have hm' := mt h.matchAll_mem_iff.2 hm
      simp [asked?, Option.filter, hm, hm', Option.Rel.some h]

namespace Selection

variable {s s' : Selection} {c : Catalogue} {t : TrackRow}

theorem Resembles.symm (h : s.Resembles s') : s'.Resembles s := by
  have hsymm {a b : Option (List Text)} (hab : Option.Rel SameNames a b) :
      Option.Rel SameNames b a := by
    cases hab with
    | none => exact .none
    | some hab => exact .some hab.symm
  exact ⟨h.titles.symm, hsymm h.albums, hsymm h.artists⟩

theorem resembles_of_fold_eq (h : s.fold = s'.fold) : s.Resembles s' := by
  have hlist {a b : Option (List Text)}
      (hab : a.map (·.map Text.fold) = b.map (·.map Text.fold)) : Option.Rel SameNames a b := by
    cases a <;> cases b
    · exact .none
    · cases hab
    · cases hab
    · exact .some (.of_fold_eq (Option.some.inj hab))
  exact ⟨.of_fold_eq (congrArg titles h), hlist (congrArg albums h), hlist (congrArg artists h)⟩

theorem Resembles.admits (h : s.Resembles s') (ha : s.Admits c t) : s'.Admits c t where
  albums names' hn' := by
    obtain ⟨names, hn, hsame⟩ := exists_of_rel_some (hn' ▸ asked?_rel h.albums)
    obtain ⟨e, a, hmem, hadmitted⟩ := ha.albums names hn
    exact ⟨e, a, hmem, hsame.admitted a.title ▸ hadmitted⟩
  artists names' hn' := by
    obtain ⟨names, hn, hsame⟩ := exists_of_rel_some (hn' ▸ asked?_rel h.artists)
    obtain ⟨a, hmem, hadmitted⟩ := ha.artists names hn
    exact ⟨a, hmem, hsame.admitted a.name ▸ hadmitted⟩
  titles hex := by
    rw [← h.titles.filter_matchAll.admitted]
    refine ha.titles ?_
    obtain ⟨n, hn, hne⟩ := hex
    obtain ⟨m, hm, hfold⟩ := List.mem_map.1 ((h.titles n.fold).2 (List.mem_map_of_mem hn))
    refine ⟨m, hm, fun he => hne ?_⟩
    rw [← fold_eq_matchAll_iff, ← hfold, he]
    rfl

theorem Resembles.admits_iff (h : s.Resembles s') : s.Admits c t ↔ s'.Admits c t :=
  ⟨h.admits, h.symm.admits⟩

theorem asked?_fold (names? : Option (List Text)) :
    asked? (names?.map (·.map Text.fold)) = (asked? names?).map (·.map Text.fold) := by
  cases names? with
  | none => rfl
  | some names =>
    by_cases h : matchAll ∈ names
    · simp [asked?, Option.filter, h, fold_eq_matchAll_iff]
    · simp [asked?, Option.filter, h, fold_eq_matchAll_iff]

theorem sortsBy_fold (s : Selection) (c : Catalogue) (t : TrackRow) :
    s.fold.sortsBy c t = s.sortsBy c t := by
  have halbums : sortsBy.albums s.fold c t = sortsBy.albums s c t := by
    unfold sortsBy.albums
    rw [fold, asked?_fold]
    cases asked? s.albums with
    | none => rfl
    | some names => simp only [Option.map_some, albumsOf, admitted_fold, rank_fold]
  have hartists : sortsBy.artists s.fold c t = sortsBy.artists s c t := by
    unfold sortsBy.artists
    rw [fold, asked?_fold]
    cases asked? s.artists with
    | none => rfl
    | some names => simp only [Option.map_some, artistsOf, admitted_fold, rank_fold]
  rw [sortsBy, halbums, hartists, fold, rank_fold, sortsBy]

end Selection

namespace Query

variable {q q' : Query} {c : Catalogue} {t : TrackRow}

theorem Resembles.admits_iff (h : q.Resembles q') : q.Admits c t ↔ q'.Admits c t := by
  induction h with
  | last h => exact h.admits_iff
  | link l h _ ih =>
    cases l with
    | and => exact and_congr h.admits_iff ih
    | or => exact h.admits_iff

theorem Resembles.orChain (h : q.Resembles q') :
    List.Forall₂ Resembles q.orChain q'.orChain := by
  induction h with
  | last h => exact .cons (.last h) .nil
  | link l h hrest ih =>
    cases l with
    | and => exact .cons (.link .and h hrest) .nil
    | or => exact .cons (.link .or h hrest) ih

namespace SortsLike

theorem resembles (h : q.SortsLike q') : q.Resembles q' := by
  induction h with
  | last h => exact .last (Selection.resembles_of_fold_eq h)
  | and h hrest => exact .link .and (Selection.resembles_of_fold_eq h) hrest
  | or h _ ih => exact .link .or (Selection.resembles_of_fold_eq h) ih

theorem head (h : q.SortsLike q') : q.head.fold = q'.head.fold := by
  cases h with
  | last h => exact h
  | and h _ => exact h
  | or h _ => exact h

theorem orChain (h : q.SortsLike q') : List.Forall₂ SortsLike q.orChain q'.orChain := by
  induction h with
  | last h => exact .cons (.last h) .nil
  | and h hrest => exact .cons (.and h hrest) .nil
  | or h hrest ih => exact .cons (.or h hrest) ih

end SortsLike

end Query

namespace Catalogue

variable {c : Catalogue} {q q' : Query}

theorem found_perm (h : c.Consistent) (hq : q.WellFormed) (hq' : q'.WellFormed)
    (hr : q.Resembles q') (seed seed' : Nat) :
    (c.found seed q.firstPlan).Perm (c.found seed' q'.firstPlan) := by
  have hlists := found_lists h hq seed
  have hlists' := found_lists h hq' seed'
  refine (List.perm_ext_iff_of_nodup hlists.nodup hlists'.nodup).2 fun t => ?_
  rw [hlists.mem_iff, hlists'.mem_iff, hr.admits_iff]

theorem before_of_lists {ts : List TrackRow} (h : q.Lists c ts) (hplain : q.head.shuffle = false) :
    ts.Pairwise (TrackRow.Before (q.head.sortsBy c)) :=
  (h.sorted hplain).imp fun ⟨hle, htie⟩ => ⟨hle, fun he => Nat.le_of_lt (htie he)⟩

theorem found_eq (h : c.Consistent) (hq : q.WellFormed) (hq' : q'.WellFormed)
    (hr : q.SortsLike q') (hplain : q.head.shuffle = false) (seed seed' : Nat) :
    c.found seed q.firstPlan = c.found seed' q'.firstPlan := by
  have hplain' : q'.head.shuffle = false := congrArg Selection.shuffle hr.head ▸ hplain
  have hkey : q'.head.sortsBy c = q.head.sortsBy c := by
    funext t
    rw [← Selection.sortsBy_fold, ← hr.head, Selection.sortsBy_fold]
  have hsorted := before_of_lists (found_lists h hq seed) hplain
  have hsorted' := before_of_lists (found_lists h hq' seed') hplain'
  rw [hkey] at hsorted'
  exact eq_of_before (found_perm h hq hq' hr.resembles seed seed') (h.found_ids_nodup _ _) hsorted
    hsorted'

end Catalogue

theorem forall₂_mem {α β : Type} {R : α → β → Prop} {as : List α} {bs : List β}
    (h : List.Forall₂ R as bs) : List.Forall₂ (fun a b => R a b ∧ a ∈ as ∧ b ∈ bs) as bs := by
  rw [List.forall₂_iff_zip] at h ⊢
  exact ⟨h.1, fun hab => ⟨h.2 hab, List.of_mem_zip hab⟩⟩

namespace Library

variable {q q' : Query} {home : OsText} {ts : List Track}

theorem paths_eq (home : OsText) (ts : List Track) (hq : q.WellFormed) (hq' : q'.WellFormed)
    (h : q.SortsLike q') (hplain : q.head.shuffle = false) (seed seed' : Nat) :
    (after home ts).paths seed q.firstPlan = (after home ts).paths seed' q'.firstPlan := by
  rw [paths, found_eq (records home ts).consistent hq hq' h hplain seed seed', paths]

/-- Queries that list the same names find the same tracks plan by plan, each once, and if they
differ in nothing but letter case where the order is decided, in the same order. They may be told
apart only by a plan that is larger than the database takes, and by letter case not even then. -/
theorem runs_resemble (home : OsText) (ts : List Track) {q q' : Query} (hq : q.WellFormed)
    (hq' : q'.WellFormed) (h : q.Resembles q') :
    let lib := after home ts
    (∀ r ∈ [q, q'], ∀ seed,
      (∀ p ∈ r.plans, p.WithinLimits → ∃ paths, lib.runOne seed p = .ok paths) ∧
      ((∀ p ∈ r.plans, p.WithinLimits) → ∃ paths, lib.run seed r.plans = .ok paths)) ∧
    List.Forall₂ (fun p p' => ∀ seed seed' paths paths', lib.runOne seed p = .ok paths →
      lib.runOne seed' p' = .ok paths' → ∃ found found' : List TrackRow,
        paths = found.map (fun t => lib.locate t.path) ∧
        paths' = found'.map (fun t => lib.locate t.path) ∧
        found.Nodup ∧ found'.Nodup ∧ found.Perm found' ∧ paths.Perm paths' ∧
        (KeepsAll home ts → paths.Nodup ∧ paths'.Nodup)) q.plans q'.plans ∧
    (q.SortsLike q' → q.Unshuffled → ∀ seed seed' paths paths', lib.run seed q.plans = .ok paths →
      lib.run seed' q'.plans = .ok paths' → paths = paths') ∧
    (q.fold = q'.fold → ∀ seed, lib.run seed q.plans = lib.run seed q'.plans) := by
  intro lib
  refine ⟨fun r hr seed => ?_, ?_, fun hs hplain seed seed' paths paths' hrun hrun' => ?_,
    fun hfold seed => ?_⟩
  · have hwf : r.WellFormed := by
      rcases List.mem_cons.1 hr with rfl | hr
      · exact hq
      · exact List.mem_singleton.1 hr ▸ hq'
    refine ⟨fun p hp hl => ⟨_, runOne_eq_ok_iff.2 ⟨lib.failure?_of_mem_plans hwf hp hl, rfl⟩⟩, ?_⟩
    exact fun hl =>
      ⟨_, run_eq_ok_iff.2 ⟨fun p hp => lib.failure?_of_mem_plans hwf hp (hl p hp), rfl⟩⟩
  · -- Each plan belongs to what follows an `or`, at the same place in both queries.
    rw [Query.plans_eq, Query.plans_eq, List.forall₂_map_left_iff, List.forall₂_map_right_iff]
    refine (forall₂_mem h.orChain).imp ?_
    rintro n n' ⟨hn, hmem, hmem'⟩ seed seed' paths paths' hrun hrun'
    have hwf := hq.of_mem_orChain hmem
    have hwf' := hq'.of_mem_orChain hmem'
    rw [(runOne_eq_ok_iff.1 hrun).2, (runOne_eq_ok_iff.1 hrun').2]
    have hperm := found_perm (records home ts).consistent hwf hwf' hn seed seed'
    have hnodup := (found_lists_after home ts hwf seed).nodup
    exact ⟨_, _, rfl, rfl, hnodup, hperm.nodup_iff.1 hnodup, hperm, hperm.map _,
      fun hkeeps => ⟨paths_nodup hkeeps hwf seed, paths_nodup hkeeps hwf' seed'⟩⟩
  · rw [run_eq_ok_iff] at hrun hrun'
    rw [hrun.2, hrun'.2, Query.plans_eq, Query.plans_eq]
    congr 1
    rw [← List.forall₂_eq_eq_eq, List.forall₂_map_left_iff, List.forall₂_map_left_iff,
      List.forall₂_map_right_iff, List.forall₂_map_right_iff]
    refine (forall₂_mem hs.orChain).imp ?_
    rintro n n' ⟨hn, hmem, hmem'⟩
    exact paths_eq home ts (hq.of_mem_orChain hmem) (hq'.of_mem_orChain hmem') hn (hplain n hmem)
      seed seed'
  · rw [← lib.run_fold, ← Query.plans_fold, hfold, Query.plans_fold, lib.run_fold]

theorem runs_resemble_narrowed :
    let lib := after music [⟨Text.utf8 ['x'], ['a', 'c'], some ['b'], some 1, []⟩]
    let q : Query := .link ⟨[['a']], some [['b']], true, none, false⟩ .and
      (.last (.ofTitles [['c']]))
    let q' : Query := .link ⟨[['A']], some [['B']], true, none, false⟩ .and
      (.last ⟨[['C'], ['c']], none, false, none, true⟩)
    ∃ paths, lib.run 0 q.plans = .ok paths ∧ lib.run 1 q'.plans = .ok paths := by
  intro lib q q'
  have hb := Grammar.forall_eq_some (Writable.single (by decide : isNameChar 'b'))
  have hb' := Grammar.forall_eq_some (Writable.single (by decide : isNameChar 'B'))
  have hc : Writable [['C'], ['c']] :=
    ⟨List.cons_ne_nil _ _, List.forall_mem_cons.2
      ⟨.single (by decide), List.forall_mem_singleton.2 (.single (by decide))⟩⟩
  have hq : q.WellFormed :=
    ⟨⟨.single (by decide), hb, nofun, by decide⟩, wellFormed_ofTitles (.single (by decide))⟩
  have hq' : q'.WellFormed :=
    ⟨⟨.single (by decide), hb', nofun, by decide⟩, ⟨hc, nofun, nofun, by decide⟩⟩
  have hinner : SameNames [['c']] [['C'], ['c']] := fun n => by simp [Text.fold]
  have hs : q.SortsLike q' := .and rfl (.last ⟨hinner, .none, .none⟩)
  obtain ⟨hok, -, hsame, -⟩ :=
    runs_resemble music [⟨Text.utf8 ['x'], ['a', 'c'], some ['b'], some 1, []⟩] hq hq' hs.resembles
  have hlimits : ∀ p ∈ q.plans, p.WithinLimits := by
    intro p hp
    obtain rfl := List.mem_singleton.1 hp
    exact ⟨by decide, by decide, by decide, by decide, by decide⟩
  have hlimits' : ∀ p ∈ q'.plans, p.WithinLimits := by
    intro p hp
    obtain rfl := List.mem_singleton.1 hp
    exact ⟨by decide, by decide, by decide, by decide, by decide⟩
  obtain ⟨paths, hpaths⟩ := (hok q List.mem_cons_self 0).2 hlimits
  obtain ⟨paths', hpaths'⟩ :=
    (hok q' (List.mem_cons_of_mem q (List.mem_singleton_self q')) 1).2 hlimits'
  obtain rfl := hsame hs (by decide) 0 1 _ _ hpaths hpaths'
  exact ⟨paths, hpaths, hpaths'⟩

/-- A title that is listed often enough is not found any more. -/
theorem repeats_find_nothing :
    let lib := after music [⟨Text.utf8 ['x'], ['a'], none, none, []⟩]
    let q : Query := .last (.ofTitles [['a']])
    let q' : Query := .last (.ofTitles (List.replicate 1200 ['a']))
    q.WellFormed ∧ q'.WellFormed ∧ q.Resembles q' ∧
      ∃ p p', q.plans = [p] ∧ q'.plans = [p'] ∧ lib.runOne 0 p = .ok [Text.utf8 "/music/x".toList] ∧
        ¬∃ paths, lib.runOne 0 p' = .ok paths := by
  intro lib q q'
  have hwritable : Writable (List.replicate 1200 ['a']) := writable_replicate 1199
  have hrepeat (k : Nat) : SameNames [['a']] (List.replicate (k + 1) ['a']) :=
    fun n => by simp [Text.fold]
  have hpaths : lib.paths 0 q.firstPlan = [Text.utf8 "/music/x".toList] := by
    have hfound : lib.catalogue.tracks.filter (lib.catalogue.finds q.firstPlan) =
        [⟨1, ['a'], ['x']⟩] := rfl
    exact paths_singleton hfound 0
  refine ⟨wellFormed_ofTitles (writable_replicate 0), wellFormed_ofTitles hwritable,
    .last ⟨hrepeat 1199, .none, .none⟩, q.firstPlan, q'.firstPlan, rfl, rfl,
    runOne_eq_ok_iff.2 ⟨rfl, hpaths.symm⟩, ?_⟩
  rintro ⟨paths, hrun⟩
  have hfail := failure?_ofTitles_tooDeep lib hwritable (matchAll_not_mem_replicate 1200)
    (by rw [List.length_replicate]; decide)
  rw [(runOne_eq_ok_iff.1 hrun).1] at hfail
  cases hfail

end Library

end Jukebox
