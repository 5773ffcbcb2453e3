import Jukebox.Proofs.Library.Meaning

/-!
What one more track changes. It leaves the rows of every other track as they are, so that an answer
keeps its tracks in their order and has at most the new one put in.
-/

set_option autoImplicit false

namespace Jukebox

open Catalogue

/-- A list stays as it is or has a value put in somewhere. -/
def GrowsBy {α : Type} (a : α) (before after : List α) : Prop :=
  after = before ∨ ∃ front back, before = front ++ back ∧ after = front ++ a :: back

namespace GrowsBy

variable {α β : Type} {a : α} {before after : List α}

theorem map (f : α → β) (h : GrowsBy a before after) :
    GrowsBy (f a) (before.map f) (after.map f) := by
  obtain rfl | ⟨front, back, rfl, rfl⟩ := h
  · exact .inl rfl
  · exact .inr ⟨front.map f, back.map f, by simp, by simp⟩

theorem sublist (h : GrowsBy a before after) : before.Sublist after := by
  obtain rfl | ⟨front, back, rfl, rfl⟩ := h
  · exact List.Sublist.refl _
  · exact (List.sublist_cons_self a back).append_left front

theorem sublist_flatten {before after : List (List α)} (h : List.Forall₂ (GrowsBy a) before after) :
    before.flatten.Sublist after.flatten := by
  induction h with
  | nil => exact List.Sublist.refl _
  | cons h _ ih => exact h.sublist.append ih

end GrowsBy

namespace Catalogue

/-- A catalogue with one more track, numbered on, and what belongs to it. -/
structure Grown (c : Catalogue) (r : TrackRow) (c' : Catalogue) : Prop where
  before : c.Consistent
  after : c'.Consistent
  tracks : c'.tracks = c.tracks ++ [r]
  keeps : Keeps r.id c c'

theorem add_cases {c : Catalogue} (h : c.Consistent) (path : Text) (t : Track) :
    (∃ id, c.add path t = (.existing id, c)) ∨
      ∃ c' r, c.add path t = (.added r.id, c') ∧ r.path = path ∧ c.Grown r c' := by
  by_cases hp : path ∈ c.tracks.map TrackRow.path
  · obtain ⟨r, hr, rfl⟩ := List.mem_map.1 hp
    exact .inl ⟨r.id, add_taken h hr t⟩
  · obtain ⟨c', r, hadd, -, hc', htracks, hholds, hkeeps⟩ := add_new h hp t
    exact .inr ⟨c', r, hadd, hholds.path, h, hc', htracks, hkeeps⟩

/-! The rows of a track do not change when another one is added. -/

section Keeps

variable {n : Nat} {c c' : Catalogue} {around : Row}

theorem track_of_mem_rows {l : Level} {r : Row} (h : r ∈ c.rows l around) :
    r.track = around.track := (Selection.mem_rows.1 h).1

theorem Keeps.rows (h : Keeps n c c') (l : Level) (hn : around.track.id ≠ n) :
    c'.rows l around = c.rows l around := by
  rw [Catalogue.rows, h.entriesOf _ hn, h.artistsOf _ hn, Catalogue.rows]

theorem Keeps.levelRows (h : Keeps n c c') (l : Level) (hn : around.track.id ≠ n) :
    c'.levelRows l around = c.levelRows l around := by
  rw [Catalogue.levelRows, h.rows l hn, Catalogue.levelRows]

theorem Keeps.passing (h : Keeps n c c') (p : Plan) (hn : around.track.id ≠ n) :
    c'.passing p around = c.passing p around := by
  induction p generalizing around with
  | only l => exact h.levelRows l hn
  | within l inner ih =>
    -- The inner plan is asked for the same track, in its own row or in one that the level makes.
    have hinner : (c.levelRows l around).filter (fun r => !(c'.passing inner r).isEmpty) =
        (c.levelRows l around).filter fun r => !(c.passing inner r).isEmpty := by
      refine List.filter_congr fun r hr => ?_
      have htrack := track_of_mem_rows (List.mem_filter.1 hr).1
      rw [ih (htrack ▸ hn)]
    rw [Catalogue.passing, Catalogue.passing, ih hn, h.levelRows l hn, hinner]

theorem track_of_mem_extend {j : Option Join} {r : Row} (h : r ∈ c.extend around j) :
    r.track = around.track := by
  cases j with
  | none => exact congrArg Row.track (List.mem_singleton.1 h)
  | some j =>
    cases j with
    | albums | artists =>
      obtain ⟨_, -, rfl⟩ := List.mem_map.1 h
      rfl

theorem Keeps.extend (h : Keeps n c c') (j : Option Join) (hn : around.track.id ≠ n) :
    c'.extend around j = c.extend around j := by
  cases j with
  | none => rfl
  | some j =>
    cases j with
    | albums => rw [Catalogue.extend, h.entriesOf _ hn, Catalogue.extend]
    | artists => rw [Catalogue.extend, h.artistsOf _ hn, Catalogue.extend]

theorem Keeps.stagesFail (h : Keeps n c c') (ss : List Stage) (hn : around.track.id ≠ n) :
    c'.stagesFail ss around = c.stagesFail ss around := by
  induction ss generalizing around with
  | nil => rfl
  | cons s ss ih =>
    rw [Catalogue.stagesFail, Catalogue.stagesFail, h.extend s.join hn, Bool.eq_iff_iff,
      List.any_eq_true, List.any_eq_true]
    refine exists_congr fun r => and_congr_right fun hr => ?_
    rw [ih (track_of_mem_extend hr ▸ hn)]

variable {t : TrackRow}

theorem Keeps.rowsOf (h : Keeps n c c') (p : Plan) (hn : t.id ≠ n) : c'.rowsOf p t = c.rowsOf p t :=
  h.passing p hn

theorem Keeps.finds (h : Keeps n c c') (p : Plan) (hn : t.id ≠ n) : c'.finds p t = c.finds p t := by
  rw [Catalogue.finds, h.rowsOf p hn, Catalogue.finds]

theorem Keeps.sortKey (h : Keeps n c c') (p : Plan) (ks : List Key) (hn : t.id ≠ n) :
    c'.sortKey p ks t = c.sortKey p ks t := by
  rw [Catalogue.sortKey, h.rowsOf p hn, Catalogue.sortKey]

end Keeps

namespace Grown

variable {c c' : Catalogue} {r : TrackRow}

theorem id_ne (h : c.Grown r c') {t : TrackRow} (ht : t ∈ c.tracks) : t.id ≠ r.id := by
  have hpairwise := h.after.tracks_pairwise
  rw [h.tracks, List.pairwise_append] at hpairwise
  exact Nat.ne_of_lt (hpairwise.2.2 t ht r (List.mem_singleton_self r))

theorem filter_finds (h : c.Grown r c') (p : Plan) :
    c'.tracks.filter (c'.finds p) =
      c.tracks.filter (c.finds p) ++ if c'.finds p r then [r] else [] := by
  have hold : c.tracks.filter (c'.finds p) = c.tracks.filter (c.finds p) :=
    List.filter_congr fun t ht => h.keeps.finds p (h.id_ne ht)
  rw [h.tracks, List.filter_append, hold]
  by_cases hr : c'.finds p r <;> simp [hr]

theorem mem_tracks (h : c.Grown r c') {t : TrackRow} (ht : t ∈ c.tracks) : t ∈ c'.tracks :=
  h.tracks ▸ List.mem_append_left [r] ht

theorem found (h : c.Grown r c') {p : Plan} (hp : p.top.order ≠ .random) (seed seed' : Nat) :
    GrowsBy r (c.found seed p) (c'.found seed' p) := by
  cases hks : p.top.order with
  | random => exact absurd hks hp
  | keys ks =>
    have hold := h.before.found_pairwise seed hks
    have hperm := c.found_perm_finds seed p
    have hmem (t : TrackRow) (ht : t ∈ c.found seed p) : t ∈ c.tracks :=
      (List.mem_filter.1 (hperm.mem_iff.1 ht)).1
    have hnew := h.after.found_pairwise seed' hks
    have hperm' := c'.found_perm_finds seed' p
    -- What the old tracks sort by is the same in both catalogues.
    have hsame {ts : List TrackRow} (hts : ts.Perm (c.found seed p))
        (hsorted : ts.Pairwise (TrackRow.Before (c'.sortKey p ks))) : c.found seed p = ts := by
      refine eq_of_before hts.symm (h.before.found_ids_nodup seed p) hold (hsorted.imp_of_mem ?_)
      intro a b ha hb hab
      have hka := h.keeps.sortKey p ks (h.id_ne (hmem a (hts.mem_iff.1 ha)))
      have hkb := h.keeps.sortKey p ks (h.id_ne (hmem b (hts.mem_iff.1 hb)))
      rwa [TrackRow.Before, hka, hkb] at hab
    rw [h.filter_finds] at hperm'
    by_cases hr : c'.finds p r
    · -- Without the new track, what is found is what was found before.
      rw [if_pos hr] at hperm'
      have hr' := hperm'.mem_iff.2 (List.mem_append_right _ (List.mem_singleton_self r))
      obtain ⟨front, back, hsplit⟩ := List.append_of_mem hr'
      rw [hsplit] at hnew hperm' ⊢
      have hrest : (front ++ back).Perm (c.found seed p) := by
        have hcons := (List.perm_middle.symm.trans hperm').trans (List.perm_append_singleton r _)
        exact hcons.cons_inv.trans hperm.symm
      have hsub : (front ++ back).Sublist (front ++ r :: back) :=
        (List.sublist_cons_self r back).append_left front
      exact .inr ⟨front, back, hsame hrest (hnew.sublist hsub), rfl⟩
    · rw [if_neg hr, List.append_nil] at hperm'
      exact .inl (hsame (hperm'.trans hperm.symm) hnew).symm

/-! A comparison that fails goes on failing, for the rows that it fails on are still there. -/

theorem levelFails (h : c.Grown r c') {ts ts' : List TrackRow} (hsub : ts ⊆ ts')
    (hts : ts ⊆ c.tracks) {l : Level} {s : Standing} (hfail : c.levelFails ts l s) :
    c'.levelFails ts' l s := by
  obtain ⟨t, ht, hrow⟩ := List.any_eq_true.1 hfail
  refine List.any_eq_true.2 ⟨t, hsub ht, ?_⟩
  rwa [h.keeps.stagesFail _ (h.id_ne (hts ht))]

theorem filteringFailsIn (h : c.Grown r c') {s : Standing} {p : Plan}
    (hfail : c.filteringFailsIn s p) : c'.filteringFailsIn s p := by
  induction p generalizing s with
  | only l => exact h.levelFails (fun _ => h.mem_tracks) (List.Subset.refl _) hfail
  | within l inner ih =>
    rw [Catalogue.filteringFailsIn, Bool.or_eq_true] at hfail ⊢
    refine hfail.imp ih (h.levelFails ?_ (List.filter_subset_self _))
    rw [h.filter_finds]
    exact List.subset_append_left _ _

theorem sortingFails (h : c.Grown r c') {p : Plan} (hfail : c.sortingFails p) :
    c'.sortingFails p := by
  unfold Catalogue.sortingFails at hfail ⊢
  split at hfail
  · cases hfail
  · next ks _ =>
    obtain ⟨t, ht, hrow⟩ := List.any_eq_true.1 hfail
    refine List.any_eq_true.2 ⟨t, h.mem_tracks ht, ?_⟩
    rwa [h.keeps.rowsOf p (h.id_ne ht)]

theorem comparisonFails (h : c.Grown r c') {p : Plan} (hfail : c.comparisonFails p) :
    c'.comparisonFails p := by
  rw [Catalogue.comparisonFails, Bool.and_eq_true, Bool.or_eq_true _ (c.sortingFails p)] at hfail
  rw [Catalogue.comparisonFails, Bool.and_eq_true, Bool.or_eq_true _ (c'.sortingFails p)]
  exact ⟨hfail.1, hfail.2.imp h.filteringFailsIn h.sortingFails⟩

end Grown

end Catalogue

end Jukebox
