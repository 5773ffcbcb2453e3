import Jukebox.Text.Basic

set_option autoImplicit false

namespace Jukebox

/-- Whether a list comes before another, by the first elements that differ. -/
def lexLe {α : Type} [DecidableEq α] (le : α → α → Bool) : List α → List α → Bool
  | [], _ => true
  | _ :: _, [] => false
  | a :: as, b :: bs => if a = b then lexLe le as bs else le a b

section Lex

variable {α : Type} [DecidableEq α] {le : α → α → Bool}

theorem lexLe_refl (as : List α) : lexLe le as as := by
  induction as with
  | nil => rfl
  | cons a as ih => simpa [lexLe] using ih

theorem lexLe_total (htotal : ∀ a b, le a b ∨ le b a) (as bs : List α) :
    lexLe le as bs ∨ lexLe le bs as := by
  induction as generalizing bs with
  | nil => exact .inl rfl
  | cons a as ih =>
    cases bs with
    | nil => exact .inr rfl
    | cons b bs =>
      by_cases hab : a = b
      · simpa [lexLe, hab] using ih bs
      · have hba : b ≠ a := fun he => hab he.symm
        simpa [lexLe, hab, hba] using htotal a b

theorem lexLe_antisymm (hanti : ∀ a b, le a b → le b a → a = b) {as bs : List α}
    (h : lexLe le as bs) (h' : lexLe le bs as) : as = bs := by
  induction as generalizing bs with
  | nil =>
    cases bs with
    | nil => rfl
    | cons b bs => cases h'
  | cons a as ih =>
    cases bs with
    | nil => cases h
    | cons b bs =>
      simp only [lexLe] at h h'
      by_cases hab : a = b
      · subst hab
        simp only [if_true] at h h'
        rw [ih h h']
      · have hba : b ≠ a := fun he => hab he.symm
        rw [if_neg hab] at h
        rw [if_neg hba] at h'
        exact absurd (hanti a b h h') hab

theorem lexLe_trans (hanti : ∀ a b, le a b → le b a → a = b)
    (htrans : ∀ a b c, le a b → le b c → le a c) {as bs cs : List α} (h : lexLe le as bs)
    (h' : lexLe le bs cs) : lexLe le as cs := by
  induction as generalizing bs cs with
  | nil => rfl
  | cons a as ih =>
    cases bs with
    | nil => cases h
    | cons b bs =>
      cases cs with
      | nil => cases h'
      | cons c cs =>
        simp only [lexLe] at h h' ⊢
        by_cases hab : a = b
        · subst hab
          by_cases hac : a = c
          · simp only [hac, if_true] at h h' ⊢
            exact ih h h'
          · simpa only [if_neg hac] using h'
        · rw [if_neg hab] at h
          by_cases hbc : b = c
          · rw [← hbc, if_neg hab]
            exact h
          · rw [if_neg hbc] at h'
            have hac : a ≠ c := fun he => hbc (hanti b c h' (he ▸ h))
            rw [if_neg hac]
            exact htrans a b c h h'

end Lex

namespace Text

theorem le_eq_lexLe (s t : Text) : le s t = lexLe (fun c d => c.toNat ≤ d.toNat) s t := by
  induction s generalizing t with
  | nil => rfl
  | cons c s ih =>
    cases t with
    | nil => rfl
    | cons d t =>
      rw [le, lexLe, ih t]
      by_cases hcd : c = d
      · rw [if_pos hcd, if_pos hcd]
      · have hne : c.toNat ≠ d.toNat := fun he => hcd (Char.toNat_inj.1 he)
        rw [if_neg hcd, if_neg hcd, decide_eq_decide]
        omega

theorem le_refl (s : Text) : le s s := by
  rw [le_eq_lexLe]
  exact lexLe_refl s

theorem le_total (s t : Text) : le s t ∨ le t s := by
  rw [le_eq_lexLe, le_eq_lexLe]
  refine lexLe_total ?_ s t
  intro c d
  simpa using Nat.le_total c.toNat d.toNat

theorem eq_of_toNat_le (c d : Char) (h : decide (c.toNat ≤ d.toNat))
    (h' : decide (d.toNat ≤ c.toNat)) : c = d := by
  rw [decide_eq_true_eq] at h h'
  exact Char.toNat_inj.1 (Nat.le_antisymm h h')

theorem le_antisymm {s t : Text} (h : le s t) (h' : le t s) : s = t := by
  rw [le_eq_lexLe] at h h'
  exact lexLe_antisymm eq_of_toNat_le h h'

theorem le_trans {r s t : Text} (h : le r s) (h' : le s t) : le r t := by
  rw [le_eq_lexLe] at h h' ⊢
  refine lexLe_trans eq_of_toNat_le ?_ h h'
  intro b c d hbc hcd
  rw [decide_eq_true_eq] at hbc hcd ⊢
  exact Nat.le_trans hbc hcd

theorem lt_of_le_of_ne {s t : Text} (h : le s t) (hne : s ≠ t) : s < t := by
  induction s generalizing t with
  | nil =>
    cases t with
    | nil => exact absurd rfl hne
    | cons d t => exact List.nil_lt_cons d t
  | cons c s ih =>
    cases t with
    | nil => cases h
    | cons d t =>
      rw [List.cons_lt_cons_iff]
      by_cases hcd : c = d
      · subst hcd
        rw [le, if_pos rfl] at h
        exact .inr ⟨rfl, ih h fun he => hne (he ▸ rfl)⟩
      · rw [le, if_neg hcd, decide_eq_true_eq] at h
        exact .inl h

theorem pairwise_sort (ts : List Text) : (sort ts).Pairwise fun s t => le s t := by
  have htrans (r s t : Text) (h : le r s) (h' : le s t) : le r t := le_trans h h'
  have htotal (s t : Text) : le s t || le t s := by simpa using le_total s t
  exact List.pairwise_mergeSort htrans htotal ts

theorem mem_collapse {ts : List Text} {v : Text} : v ∈ collapse ts ↔ v ∈ ts := by
  induction ts with
  | nil => rfl
  | cons t ts ih =>
    rw [List.mem_cons, ← ih, collapse]
    cases collapse ts with
    | nil => simp
    | cons u us =>
      by_cases htu : t = u
      · simp [htu]
      · simp [htu]

theorem pairwise_collapse {ts : List Text} (h : ts.Pairwise fun s t => le s t) :
    (collapse ts).Pairwise fun s t => le s t ∧ s ≠ t := by
  induction h with
  | nil => exact List.Pairwise.nil
  | @cons t ts ht _ ih =>
    have hle : ∀ u ∈ collapse ts, le t u := fun u hu => ht u (mem_collapse.1 hu)
    rw [collapse]
    cases hts : collapse ts with
    | nil => exact List.pairwise_singleton _ t
    | cons u us =>
      rw [hts] at ih hle
      by_cases htu : t = u
      · simpa [htu] using ih
      · simp only [if_neg htu]
        refine List.pairwise_cons.2 ⟨fun v hv => ⟨hle v hv, ?_⟩, ih⟩
        rintro rfl
        -- The value comes again behind another one, and is both before and after it.
        obtain rfl | hv := List.mem_cons.1 hv
        · exact htu rfl
        · have hut := (List.rel_of_pairwise_cons ih hv).1
          exact htu (le_antisymm (hle u List.mem_cons_self) hut)

theorem pairwise_collapse_sort (ts : List Text) : (collapse (sort ts)).Pairwise (· < ·) :=
  (pairwise_collapse (pairwise_sort ts)).imp fun h => lt_of_le_of_ne h.1 h.2

theorem mem_collapse_sort {ts : List Text} {v : Text} : v ∈ collapse (sort ts) ↔ v ∈ ts :=
  mem_collapse.trans (ts.mergeSort_perm le).mem_iff

end Text

end Jukebox
