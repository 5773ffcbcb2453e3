import Mathlib.Data.List.Nodup
import Jukebox.Proofs.Library.Cells

set_option autoImplicit false

namespace Jukebox

namespace Catalogue

theorem length_draws (seed n : Nat) : (draws seed n).length = n := by
  induction n generalizing seed with
  | zero => rfl
  | succ n ih => rw [draws, List.length_cons, ih]

theorem shuffle_perm (seed : Nat) (ts : List TrackRow) : (shuffle seed ts).Perm ts := by
  have hzip : ((draws seed ts.length).zip ts).map (·.2) = ts := by
    refine List.map_snd_zip ?_
    simp [length_draws]
  have hsort := (List.mergeSort_perm ((draws seed ts.length).zip ts) fun a b => a.1 ≤ b.1).map (·.2)
  rwa [hzip] at hsort

theorem arrange_perm (c : Catalogue) (seed : Nat) (p : Plan) (ts : List TrackRow) :
    (c.arrange seed p ts).Perm ts := by
  unfold arrange
  split
  · exact shuffle_perm seed ts
  · next ks _ =>
    have hsort := (List.mergeSort_perm (ts.map fun t => (c.sortKey p ks t, t))
      fun a b => Cell.listLe a.1 b.1).map (·.2)
    rwa [List.map_map, Function.comp_def, List.map_id'] at hsort

theorem found_perm_finds (c : Catalogue) (seed : Nat) (p : Plan) :
    (c.found seed p).Perm (c.tracks.filter (c.finds p)) :=
  c.arrange_perm seed p _

theorem id_le_of_getElem? {ts : List TrackRow} (hts : ts.Pairwise (·.id < ·.id)) {i j : Nat}
    {a b : TrackRow} (ha : ts[i]? = some a) (hb : ts[j]? = some b) (hij : i ≤ j) : a.id ≤ b.id := by
  obtain ⟨hi, rfl⟩ := List.getElem?_eq_some_iff.1 ha
  obtain ⟨hj, rfl⟩ := List.getElem?_eq_some_iff.1 hb
  rcases Nat.lt_or_eq_of_le hij with hlt | rfl
  · exact Nat.le_of_lt (List.pairwise_iff_getElem.1 hts i j hi hj hlt)
  · exact Nat.le_refl _

def TrackRow.Before (key : TrackRow → List Cell) (a b : TrackRow) : Prop :=
  Cell.listLe (key a) (key b) ∧ (key a = key b → a.id ≤ b.id)

/-- There is one way only to list tracks by a key and as they were added. -/
theorem eq_of_before {key : TrackRow → List Cell} {ts us : List TrackRow} (hperm : ts.Perm us)
    (hids : (ts.map TrackRow.id).Nodup) (hts : ts.Pairwise (TrackRow.Before key))
    (hus : us.Pairwise (TrackRow.Before key)) : ts = us := by
  refine hperm.eq_of_pairwise ?_ hts hus
  intro a b ha hb ⟨hab, hid⟩ ⟨hba, hid'⟩
  have hkey := Cell.listLe_antisymm hab hba
  have hid := Nat.le_antisymm (hid hkey) (hid' hkey.symm)
  exact List.inj_on_of_nodup_map hids ha (hperm.mem_iff.2 hb) hid

/-- Tracks come by their sort keys, and then as they were added. -/
theorem arrange_pairwise (c : Catalogue) (seed : Nat) {p : Plan} {ks : List Key}
    (hp : p.top.order = .keys ks) {ts : List TrackRow} (hts : ts.Pairwise (·.id < ·.id)) :
    (c.arrange seed p ts).Pairwise (TrackRow.Before (c.sortKey p ks)) := by
  let le (a b : List Cell × TrackRow) : Bool := Cell.listLe a.1 b.1
  have htrans (x y z : List Cell × TrackRow) : le x y → le y z → le x z := Cell.listLe_trans
  have htotal (x y : List Cell × TrackRow) : le x y || le y x := by
    simpa [le] using Cell.listLe_total x.1 y.1
  -- Rows sorted together with their places tie with no other, which keeps the order of additions.
  have hsorted := List.pairwise_mergeSort (List.zipIdxLE_trans htrans) (List.zipIdxLE_total htotal)
    (ts.map fun t => (c.sortKey p ks t, t)).zipIdx
  have harrange : c.arrange seed p ts =
      ((List.mergeSort (ts.map fun t => (c.sortKey p ks t, t)).zipIdx (List.zipIdxLE le)).map
        (·.1)).map (·.2) := by
    rw [List.mergeSort_zipIdx, arrange, hp]
  rw [harrange, List.pairwise_map, List.pairwise_map]
  refine hsorted.imp_of_mem ?_
  intro x y hx hy hle
  rw [(List.mergeSort_perm _ _).mem_iff, List.mem_zipIdx_iff_getElem?, List.getElem?_map,
    Option.map_eq_some_iff] at hx hy
  obtain ⟨ka, i⟩ := x
  obtain ⟨kb, j⟩ := y
  obtain ⟨a, ha, rfl⟩ := hx
  obtain ⟨b, hb, rfl⟩ := hy
  simp only [List.zipIdxLE] at hle
  by_cases hab : le (c.sortKey p ks a, a) (c.sortKey p ks b, b)
  · refine ⟨hab, fun he => id_le_of_getElem? hts ha hb ?_⟩
    have hba : le (c.sortKey p ks b, b) (c.sortKey p ks a, a) := by
      simpa [le, he] using Cell.listLe_refl (c.sortKey p ks b)
    simpa only [hab, hba, if_true, decide_eq_true_eq] using hle
  · rw [if_neg hab] at hle
    cases hle

end Catalogue

end Jukebox
