import Jukebox.Proofs.Path.Pieces

/-!
Paths that are made relative to a directory. Just the paths in the directory can be, by components,
and what is left of such a path leads from the directory back to where the path leads.
-/

set_option autoImplicit false

namespace Jukebox

namespace Path

variable {α : Type} [DecidableEq α] [Alphabet α] {home dir p r s : List α}

/-! The pieces behind the names of a directory. -/

theorem idle_of_dropWhile_eq_cons {q : List α} {ps qs : List (List α)}
    (h : ps.dropWhile idle = q :: qs) : idle q = false := by
  have hhead := List.head?_dropWhile_not idle ps
  rw [h] at hhead
  exact hhead

theorem afterNames?_eq_some {ns ps qs : List (List α)} (h : afterNames? ns ps = some qs) :
    ps.filter (!idle ·) = ns ++ qs.filter (!idle ·) := by
  induction ns generalizing ps with
  | nil =>
    cases h
    rfl
  | cons n ns ih =>
    rw [afterNames?] at h
    cases hd : ps.dropWhile idle with
    | nil => simp [hd] at h
    | cons r rs =>
      simp only [hd] at h
      split at h
      · next hr =>
        subst hr
        have hidle := idle_of_dropWhile_eq_cons hd
        rw [← filter_dropWhile_idle, hd, List.filter_cons_of_pos (by simp [hidle]), ih h]
        rfl
      · cases h

theorem afterNames?_isSome_iff {ns ps : List (List α)} :
    (afterNames? ns ps).isSome ↔ ns <+: ps.filter (!idle ·) := by
  constructor
  · intro h
    obtain ⟨qs, hqs⟩ := Option.isSome_iff_exists.1 h
    exact ⟨qs.filter (!idle ·), (afterNames?_eq_some hqs).symm⟩
  · intro h
    induction ns generalizing ps with
    | nil => rfl
    | cons n ns ih =>
      rw [← filter_dropWhile_idle] at h
      rw [afterNames?]
      cases hd : ps.dropWhile idle with
      | nil =>
        rw [hd, List.filter_nil, List.prefix_nil] at h
        cases h
      | cons r rs =>
        have hidle := idle_of_dropWhile_eq_cons hd
        rw [hd, List.filter_cons_of_pos (by simp [hidle]), List.cons_prefix_cons] at h
        simp only [h.1, if_true]
        exact ih h.2

theorem afterNames?_suffix {ns ps qs : List (List α)} (h : afterNames? ns ps = some qs) :
    qs <:+ ps := by
  induction ns generalizing ps with
  | nil =>
    cases h
    exact List.suffix_refl _
  | cons n ns ih =>
    rw [afterNames?] at h
    cases hd : ps.dropWhile idle with
    | nil => simp [hd] at h
    | cons r rs =>
      rw [hd] at h
      by_cases hr : r = n
      · simp only [hr, if_true] at h
        have hsuffix : r :: rs <:+ ps := by
          rw [← hd]
          exact List.dropWhile_suffix idle
        exact (ih h).trans ((List.suffix_cons r rs).trans hsuffix)
      · simp [hr] at h

theorem head_ne_slash {t : List α} {q : List α} {qs : List (List α)} (hq : idle q = false)
    (hs : slash ∉ q) (h : [slash].intercalate (q :: qs) = t) : isAbsolute t = false := by
  cases q with
  | nil => cases hq
  | cons c q =>
    have hc : slash ≠ c := fun he => hs (he ▸ List.mem_cons_self)
    subst h
    cases qs <;> simp [isAbsolute, List.intercalate_cons_cons, Ne.symm hc]

/-! A relative path seen from a directory. -/

theorem names_join (dir : List α) (hs : isAbsolute s = false) :
    (shape (join dir s)).names = (shape dir).names ++ (s.splitOn slash).filter (!idle ·) := by
  obtain ⟨ps, hjoin, hdir⟩ := exists_parts_join dir hs
  rw [names_of_parts hdir, names_shape, hjoin, List.filter_append]

theorem lead_join (hdir : dir ≠ []) (hs : isAbsolute s = false) :
    (shape (join dir s)).lead = (shape dir).lead := by
  obtain ⟨ps, hjoin, hparts⟩ := exists_parts_join dir hs
  cases ps with
  | nil =>
    have htext : [slash].intercalate (dir.splitOn slash) = dir := List.intercalate_splitOn slash
    rcases hparts with ⟨-, hnil⟩ | hnil
    · exact absurd hnil (List.splitOn_ne_nil slash dir)
    · rw [hnil] at htext
      exact absurd htext.symm hdir
  | cons q qs =>
    have hrest : qs ++ s.splitOn slash ≠ [] := by simp
    rw [lead_of_parts hparts, shape, hjoin, List.cons_append, ofParts_cons fun _ => hrest]

theorem join_of_isAbsolute (dir : List α) (hp : isAbsolute p) : join dir p = p := if_pos hp

theorem join_nil_left (p : List α) : join [] p = p := by
  simp [join]

theorem isAbsolute_join (hdir : isAbsolute dir) (p : List α) : isAbsolute (join dir p) := by
  cases hp : isAbsolute p with
  | true => rwa [join_of_isAbsolute dir hp]
  | false =>
    cases dir with
    | nil => cases hdir
    | cons c dir =>
      rw [join, if_neg (by simp [hp])]
      split <;> exact hdir

/-! Paths in a directory. -/

/-- A path that lies in a directory starts from the same place and goes on behind its names. -/
theorem relativeTo?_eq_some (hhome : home ≠ []) (h : relativeTo? home p = some r) :
    (shape home).lead = (shape p).lead ∧
      (shape p).names = (shape home).names ++ (r.splitOn slash).filter (!idle ·) := by
  have hcomponents : (shape home).components ≠ [] := fun he => hhome (eq_nil_of_components he)
  simp only [relativeTo?, if_neg hcomponents] at h
  split at h
  · cases h
  · next hlead =>
    obtain ⟨qs, hqs, rfl⟩ := Option.map_eq_some_iff.1 h
    refine ⟨not_not.1 hlead, ?_⟩
    have hslash : ∀ q ∈ trimEnd (qs.dropWhile idle), slash ∉ q := fun q hq =>
      not_mem_pieces ((afterNames?_suffix hqs).subset
        ((List.dropWhile_suffix idle).subset ((trimEnd_isPrefix _).subset hq)))
    rw [filter_parts hslash, filter_trimEnd, filter_dropWhile_idle]
    exact afterNames?_eq_some hqs

theorem relativeTo?_isSome_iff (hhome : home ≠ []) :
    (relativeTo? home p).isSome ↔ components home <+: components p := by
  have hcomponents : (shape home).components ≠ [] := fun he => hhome (eq_nil_of_components he)
  rw [components, components, Shape.components_prefix_iff hcomponents, relativeTo?]
  simp only [if_neg hcomponents]
  by_cases hlead : (shape home).lead = (shape p).lead
  · rw [if_neg (not_not.2 hlead), Option.isSome_map, afterNames?_isSome_iff]
    exact (and_iff_right hlead).symm
  · rw [if_pos hlead]
    exact iff_of_false Bool.false_ne_true fun h => hlead h.1

theorem relativeTo?_join (hhome : home ≠ []) (hs : isAbsolute s = false) :
    (relativeTo? home (join home s)).isSome := by
  have hcomponents : (shape home).components ≠ [] := fun he => hhome (eq_nil_of_components he)
  rw [relativeTo?_isSome_iff hhome, components, components,
    Shape.components_prefix_iff hcomponents, lead_join hhome hs, names_join home hs]
  exact ⟨rfl, List.prefix_append _ _⟩

/-- What is relative to a directory is no absolute path, unless there is no directory. -/
theorem not_isAbsolute_of_relativeTo? {home p r : List α} (h : relativeTo? home p = some r)
    (hhome : home ≠ []) : isAbsolute r = false := by
  have hcomponents : (shape home).components ≠ [] := fun he => hhome (eq_nil_of_components he)
  simp only [relativeTo?, if_neg hcomponents] at h
  split at h
  · cases h
  · obtain ⟨ps, hps, rfl⟩ := Option.map_eq_some_iff.1 h
    cases hd : trimEnd (ps.dropWhile idle) with
    | nil => rfl
    | cons q qs =>
      obtain ⟨more, hmore⟩ := trimEnd_isPrefix (ps.dropWhile idle)
      rw [hd, List.cons_append] at hmore
      have hdrop : q :: (qs ++ more) <:+ ps := by
        rw [hmore]
        exact List.dropWhile_suffix idle
      have hmem : q ∈ (shape p).pieces :=
        (hdrop.trans (afterNames?_suffix hps)).subset List.mem_cons_self
      exact head_ne_slash (idle_of_dropWhile_eq_cons hmore.symm) (not_mem_pieces hmem) rfl

/-- What is left of a path in a directory leads back to where the path leads. -/
theorem components_join_relativeTo? (hhome : home ≠ []) (h : relativeTo? home p = some r) :
    components (join home r) = components p := by
  have hr := not_isAbsolute_of_relativeTo? h hhome
  obtain ⟨hlead, hnames⟩ := relativeTo?_eq_some hhome h
  rw [components, components, Shape.components, Shape.components, names_join home hr,
    lead_join hhome hr, hlead, hnames]

theorem components_of_relativeTo?_nil (h : relativeTo? [] p = some r) :
    components r = components p := by
  have hnone : (shape ([] : List α)).components = [] := by
    rw [shape_nil]
    rfl
  simp only [relativeTo?, if_pos hnone] at h
  cases h
  by_cases hp : p = []
  · subst hp
    rw [shape_nil]
    exact hnone
  · have hfront : Shape.Regular ⟨(shape p).lead, trimEnd (shape p).pieces⟩ :=
      (regular_shape hp).front (trimEnd_isPrefix _)
    rw [components_text hfront, components, Shape.components, Shape.components, Shape.names,
      Shape.names, filter_trimEnd]

theorem relativeTo?_nil (hp : isAbsolute p) :
    ∃ r, relativeTo? [] p = some r ∧ isAbsolute r ∧ components r = components p := by
  cases p with
  | nil => cases hp
  | cons c t =>
    obtain rfl : c = slash := by simpa [isAbsolute] using hp
    have hnone : (shape ([] : List α)).components = [] := by
      rw [shape_nil]
      rfl
    have hr : relativeTo? [] (slash :: t) =
        some (Shape.text ⟨.root, trimEnd (t.splitOn slash)⟩) := by
      rw [relativeTo?, shape_slash_cons]
      exact if_pos hnone
    refine ⟨_, hr, ?_, components_of_relativeTo?_nil hr⟩
    simp [isAbsolute, Shape.text, Lead.text]

theorem names_relativeTo?_subset (h : relativeTo? home p = some r) :
    (shape r).names ⊆ (shape p).names := by
  by_cases hhome : home = []
  · subst hhome
    exact (Shape.components_inj (components_of_relativeTo?_nil h)).2 ▸ List.Subset.refl _
  · rw [(relativeTo?_eq_some hhome h).2, ← names_shape]
    exact List.subset_append_right _ _

/-! Paths as they are kept: relative to a directory if they lie in it. -/

theorem components_join_getD (hp : isAbsolute p) :
    components (join home ((relativeTo? home p).getD p)) = components p := by
  by_cases hhome : home = []
  · subst hhome
    obtain ⟨r, hr, -, hcomponents⟩ := relativeTo?_nil hp
    rw [hr, Option.getD_some, join_nil_left, hcomponents]
  · cases hr : relativeTo? home p with
    | some r => exact components_join_relativeTo? hhome hr
    | none => rw [Option.getD_none, join_of_isAbsolute home hp]

theorem not_isAbsolute_getD_iff (hp : isAbsolute p) :
    isAbsolute ((relativeTo? home p).getD p) = false ↔
      home ≠ [] ∧ components home <+: components p := by
  by_cases hhome : home = []
  · subst hhome
    obtain ⟨r, hr, habsolute, -⟩ := relativeTo?_nil hp
    rw [hr, Option.getD_some, habsolute]
    exact iff_of_false nofun fun h => h.1 rfl
  · rw [← relativeTo?_isSome_iff hhome, and_iff_right hhome]
    cases hr : relativeTo? home p with
    | some r =>
      rw [Option.getD_some, not_isAbsolute_of_relativeTo? hr hhome]
      exact iff_of_true rfl rfl
    | none =>
      rw [Option.getD_none, hp]
      exact iff_of_false nofun nofun

theorem relativeTo?_congr (h : components home = components dir) (p : List α) :
    relativeTo? home p = relativeTo? dir p := by
  obtain ⟨hlead, hnames⟩ := Shape.components_inj h
  have hcomponents : (shape home).components = (shape dir).components := h
  rw [relativeTo?, relativeTo?]
  simp only [hcomponents, hlead, hnames]

theorem join_left_cancel {home s t : List α} (hs : isAbsolute s = false) (ht : isAbsolute t = false)
    (h : join home s = join home t) : s = t := by
  simp only [join, hs, ht, Bool.false_eq_true, if_false] at h
  split at h
  · exact List.append_cancel_left h
  · exact (List.cons.inj (List.append_cancel_left h)).2

/-- An absolute path under which a file is kept does not lie in the directory. -/
theorem join_ne_stored (hs : isAbsolute s = false) (hp : isAbsolute ((relativeTo? home p).getD p)) :
    (relativeTo? home p).getD p ≠ join home s := by
  intro he
  have hhome : home ≠ [] := by
    rintro rfl
    rw [he, join_nil_left, hs] at hp
    cases hp
  cases hr : relativeTo? home p with
  | some r =>
    rw [hr, Option.getD_some, not_isAbsolute_of_relativeTo? hr hhome] at hp
    cases hp
  | none =>
    -- The path was not inside the directory, but what is joined to the directory is.
    have hsome := relativeTo?_join hhome hs
    rw [hr, Option.getD_none] at he
    rw [← he, hr] at hsome
    cases hsome

theorem join_stored_inj {home p q : List α}
    (h : join home ((relativeTo? home p).getD p) = join home ((relativeTo? home q).getD q)) :
    (relativeTo? home p).getD p = (relativeTo? home q).getD q := by
  cases hp : isAbsolute ((relativeTo? home p).getD p) with
  | false =>
    cases hq : isAbsolute ((relativeTo? home q).getD q) with
    | false => exact join_left_cancel hp hq h
    | true =>
      rw [join_of_isAbsolute home hq] at h
      exact absurd h.symm (join_ne_stored hp hq)
  | true =>
    rw [join_of_isAbsolute home hp] at h
    cases hq : isAbsolute ((relativeTo? home q).getD q) with
    | false => exact absurd h (join_ne_stored hq hp)
    | true => rwa [join_of_isAbsolute home hq] at h

end Path

end Jukebox
