import Jukebox.Library.Rows
import Jukebox.Proofs.Text.Order

set_option autoImplicit false

namespace Jukebox

namespace Cell

theorem le_refl (v : Cell) : v.le v := by
  cases v with
  | null => rfl
  | number n => simp [le]
  | text t => exact Text.le_refl t

theorem le_total (v w : Cell) : v.le w ∨ w.le v := by
  cases v with
  | null => exact .inl rfl
  | number m =>
    cases w with
    | null => exact .inr rfl
    | number n =>
      have h := Nat.le_total m n
      simpa [le] using h
    | text t => exact .inl rfl
  | text s =>
    cases w with
    | null => exact .inr rfl
    | number n => exact .inr rfl
    | text t => exact Text.le_total s t

theorem le_trans {u v w : Cell} (h : u.le v) (h' : v.le w) : u.le w := by
  cases u with
  | null => rfl
  | number m =>
    cases v with
    | null => cases h
    | number n =>
      cases w with
      | null => cases h'
      | number k =>
        simp only [le, decide_eq_true_eq] at h h' ⊢
        omega
      | text t => rfl
    | text t =>
      cases w with
      | null => cases h'
      | number k => cases h'
      | text t' => rfl
  | text s =>
    cases v with
    | null => cases h
    | number n => cases h
    | text t =>
      cases w with
      | null => cases h'
      | number k => cases h'
      | text t' => exact Text.le_trans h h'

theorem le_antisymm {v w : Cell} (h : v.le w) (h' : w.le v) : v = w := by
  cases v with
  | null =>
    cases w with
    | null => rfl
    | number n => cases h'
    | text t => cases h'
  | number m =>
    cases w with
    | null => cases h
    | number n =>
      simp only [le, decide_eq_true_eq] at h h'
      rw [Nat.le_antisymm h h']
    | text t => cases h'
  | text s =>
    cases w with
    | null => cases h
    | number n => cases h
    | text t => exact congrArg text (Text.le_antisymm h h')

theorem least_cons_null (vs : List Cell) : least (.null :: vs) = least vs := by
  simp [least]

theorem least_cons {v : Cell} (hv : v ≠ .null) (vs : List Cell) :
    least (v :: vs) = if least vs = .null then v else if v.le (least vs) then v else least vs := by
  cases v with
  | null => exact absurd rfl hv
  | number n => cases h : least vs <;> simp [least, h]
  | text t => cases h : least vs <;> simp [least, h]

theorem least_mem (vs : List Cell) :
    least vs ∈ vs ∧ least vs ≠ .null ∨ least vs = .null ∧ ∀ v ∈ vs, v = .null := by
  induction vs with
  | nil => exact .inr ⟨rfl, nofun⟩
  | cons v vs ih =>
    by_cases hv : v = .null
    · rw [hv, least_cons_null]
      rcases ih with ⟨hm, hn⟩ | ⟨hn, hall⟩
      · exact .inl ⟨List.mem_cons_of_mem _ hm, hn⟩
      · exact .inr ⟨hn, by simpa using hall⟩
    · rw [least_cons hv]
      rcases ih with ⟨hm, hn⟩ | ⟨hn, hall⟩
      · left
        by_cases hle : v.le (least vs)
        · simp [hn, hle, hv]
        · simp [hn, hle, hm]
      · left
        simp [hn, hv]

theorem least_le {vs : List Cell} {v : Cell} (hm : v ∈ vs) (hv : v ≠ .null) : (least vs).le v := by
  induction vs with
  | nil => cases hm
  | cons w vs ih =>
    by_cases hw : w = .null
    · rw [hw, least_cons_null]
      rcases List.mem_cons.1 hm with rfl | hm
      · exact absurd hw hv
      · exact ih hm
    · rw [least_cons hw]
      by_cases hn : least vs = .null
      · rw [if_pos hn]
        rcases List.mem_cons.1 hm with rfl | hm
        · exact le_refl v
        · obtain ⟨-, hne⟩ | ⟨-, hall⟩ := least_mem vs
          · exact absurd hn hne
          · exact absurd (hall v hm) hv
      · rw [if_neg hn]
        by_cases hle : w.le (least vs)
        · rw [if_pos hle]
          rcases List.mem_cons.1 hm with rfl | hm
          · exact le_refl v
          · exact le_trans hle (ih hm)
        · rw [if_neg hle]
          rcases List.mem_cons.1 hm with rfl | hm
          · exact (le_total v (least vs)).resolve_left hle
          · exact ih hm

theorem least_singleton (v : Cell) : least [v] = v := by cases v <;> rfl

/-- How often a value stands in a list, and where, does not change the least one. -/
theorem least_congr {vs ws : List Cell} (h : ∀ v, v ∈ vs ↔ v ∈ ws) : least vs = least ws := by
  rcases least_mem vs with ⟨hv, hvn⟩ | ⟨hv, hvall⟩
  · rcases least_mem ws with ⟨hw, hwn⟩ | ⟨-, hwall⟩
    · exact le_antisymm (least_le ((h _).2 hw) hwn) (least_le ((h _).1 hv) hvn)
    · exact absurd (hwall _ ((h _).1 hv)) hvn
  · rcases least_mem ws with ⟨hw, hwn⟩ | ⟨hw, -⟩
    · exact absurd (hvall _ ((h _).2 hw)) hwn
    · rw [hv, hw]

theorem least_map_congr {α β : Type} {as : List α} {bs : List β} {f : α → Cell} {g : β → Cell}
    (h : ∀ a ∈ as, ∃ b ∈ bs, f a = g b) (h' : ∀ b ∈ bs, ∃ a ∈ as, f a = g b) :
    least (as.map f) = least (bs.map g) := by
  refine least_congr fun v => ?_
  rw [List.mem_map, List.mem_map]
  constructor
  · intro ⟨a, ha, hv⟩
    obtain ⟨b, hb, hab⟩ := h a ha
    exact ⟨b, hb, hab.symm.trans hv⟩
  · intro ⟨b, hb, hv⟩
    obtain ⟨a, ha, hab⟩ := h' b hb
    exact ⟨a, ha, hab.trans hv⟩

theorem listLe_eq_lexLe (vs ws : List Cell) : listLe vs ws = lexLe le vs ws := by
  induction vs generalizing ws with
  | nil => rfl
  | cons v vs ih =>
    cases ws with
    | nil => rfl
    | cons w ws => rw [listLe, lexLe, ih ws]

theorem listLe_refl (vs : List Cell) : listLe vs vs := by
  rw [listLe_eq_lexLe]
  exact lexLe_refl vs

theorem listLe_total (vs ws : List Cell) : listLe vs ws ∨ listLe ws vs := by
  rw [listLe_eq_lexLe, listLe_eq_lexLe]
  exact lexLe_total le_total vs ws

theorem listLe_antisymm {vs ws : List Cell} (h : listLe vs ws) (h' : listLe ws vs) : vs = ws := by
  rw [listLe_eq_lexLe] at h h'
  exact lexLe_antisymm (fun _ _ => le_antisymm) h h'

theorem listLe_trans {us vs ws : List Cell} (h : listLe us vs) (h' : listLe vs ws) :
    listLe us ws := by
  rw [listLe_eq_lexLe] at h h' ⊢
  exact lexLe_trans (fun _ _ => le_antisymm) (fun _ _ _ => le_trans) h h'

end Cell

end Jukebox
