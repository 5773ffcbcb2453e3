import Mathlib.Data.List.TakeWhile
import Jukebox.Path

set_option autoImplicit false

namespace Jukebox

namespace Path

variable {α : Type} [DecidableEq α] [Alphabet α]

theorem not_mem_piece {t p : List α} (h : p ∈ t.splitOn slash) : slash ∉ p := by
  induction t generalizing p with
  | nil =>
    rw [List.splitOn_nil, List.mem_singleton] at h
    simp [h]
  | cons c t ih =>
    rw [List.splitOn_cons_eq_if_modifyHead] at h
    by_cases hc : c = slash
    · simp only [hc, beq_self_eq_true, if_true, List.mem_cons] at h
      rcases h with rfl | h
      · simp
      · exact ih h
    · have hne : (c == slash) = false := by simpa using hc
      obtain ⟨q, qs, hq⟩ := List.exists_cons_of_ne_nil (List.splitOn_ne_nil slash t)
      rw [hne, hq] at h
      rw [hq] at ih
      simp only [Bool.false_eq_true, if_false, List.modifyHead_cons, List.mem_cons] at h
      rcases h with rfl | h
      · have hnot := ih List.mem_cons_self
        simp [Ne.symm hc, hnot]
      · exact ih (List.mem_cons_of_mem q h)

theorem exists_parts (p : List α) :
    ∃ q qs, p.splitOn slash = q :: qs ∧ [slash].intercalate (q :: qs) = p ∧
      (p ≠ [] → q = [] → qs ≠ []) := by
  obtain ⟨q, qs, hcut⟩ := List.exists_cons_of_ne_nil (List.splitOn_ne_nil slash p)
  have htext : [slash].intercalate (p.splitOn slash) = p := List.intercalate_splitOn slash
  rw [hcut] at htext
  refine ⟨q, qs, hcut, htext, ?_⟩
  rintro hp rfl rfl
  exact hp htext.symm

theorem idle_iff {q : List α} : idle q ↔ q = [] ∨ q = [dot] := by simp [idle]

theorem ofParts_cons {q : List α} {qs : List (List α)} (h : q = [] → qs ≠ []) :
    ofParts (q :: qs) = ⟨leadOf q, opening q ++ qs⟩ := if_neg fun hnil => h hnil.1 hnil.2

theorem shape_nil : shape ([] : List α) = ⟨.nothing, [[]]⟩ := by
  rw [shape, List.splitOn_nil, ofParts, if_pos ⟨rfl, rfl⟩]

theorem opening_of_not_idle {q : List α} (h : idle q = false) :
    leadOf q = .nothing ∧ opening q = [q] := by
  have hne : ¬(q = [] ∨ q = [dot]) := by rw [← idle_iff, h]; nofun
  rw [not_or] at hne
  rw [leadOf, opening, if_neg hne.1, if_neg hne.2, if_neg hne.1, if_neg hne.2]
  exact ⟨rfl, rfl⟩

theorem leadOf_dot : leadOf [dot (α := α)] = .here := by simp [leadOf]

theorem opening_dot : opening [dot (α := α)] = [[]] := by simp [opening]

theorem idle_dot : idle [dot (α := α)] := by simp [idle]

theorem filter_opening (q : List α) (qs : List (List α)) :
    (opening q ++ qs).filter (!idle ·) = (q :: qs).filter (!idle ·) := by
  by_cases hq : idle q
  · rcases idle_iff.1 hq with rfl | rfl
    · rfl
    · rw [opening_dot, List.filter_cons_of_neg (by simp [idle_dot])]
      rfl
  · rw [(opening_of_not_idle (by simpa using hq)).2]
    rfl

theorem shape_slash_cons (t : List α) : shape (slash :: t) = ⟨.root, t.splitOn slash⟩ := by
  have hcut : (slash :: t).splitOn slash = [] :: t.splitOn slash :=
    List.splitOn_append_cons_self [] t
  rw [shape, hcut, ofParts_cons fun _ => List.splitOn_ne_nil slash t]
  rfl

theorem shape_dot : shape [dot (α := α)] = ⟨.here, [[]]⟩ := by
  have hcut : [dot (α := α)].splitOn slash = [[dot]] :=
    List.splitOn_eq_singleton fun h => slash_ne_dot (List.mem_singleton.1 h)
  rw [shape, hcut, ofParts_cons fun h => absurd h (List.cons_ne_nil _ _), leadOf_dot, opening_dot]
  rfl

theorem shape_dot_slash (t : List α) :
    shape (dot :: slash :: t) = ⟨.here, [] :: t.splitOn slash⟩ := by
  have hnot : slash ∉ [dot (α := α)] := fun h => slash_ne_dot (List.mem_singleton.1 h)
  have hcut : ([dot] ++ slash :: t).splitOn slash = [dot] :: t.splitOn slash := by
    rw [List.splitOn_append_cons_self, List.splitOn_eq_singleton hnot]
    rfl
  rw [shape, ← List.singleton_append, hcut,
    ofParts_cons fun h => absurd h (List.cons_ne_nil _ _), leadOf_dot, opening_dot]
  rfl

theorem names_ofParts (ps : List (List α)) : (ofParts ps).names = ps.filter (!idle ·) := by
  cases ps with
  | nil => rfl
  | cons p ps =>
    by_cases h : p = [] ∧ ps = []
    · obtain ⟨rfl, rfl⟩ := h
      rfl
    · rw [ofParts, if_neg h]
      exact filter_opening p ps

theorem names_shape (p : List α) : (shape p).names = (p.splitOn slash).filter (!idle ·) :=
  names_ofParts _

theorem mem_pieces {p piece : List α} (h : piece ∈ (shape p).pieces) :
    piece ∈ p.splitOn slash ∨ piece = [] := by
  obtain ⟨q, qs, hcut, -, hne⟩ := exists_parts p
  by_cases hp : p = []
  · subst hp
    rw [shape_nil] at h
    exact .inr (List.mem_singleton.1 h)
  · rw [shape, hcut, ofParts_cons (hne hp)] at h
    rw [hcut]
    rcases List.mem_append.1 h with h | h
    · unfold opening at h
      split at h
      · cases h
      · split at h
        · exact .inr (List.mem_singleton.1 h)
        · exact .inl (List.mem_singleton.1 h ▸ List.mem_cons_self)
    · exact .inl (List.mem_cons_of_mem q h)

theorem not_mem_pieces {p piece : List α} (h : piece ∈ (shape p).pieces) : slash ∉ piece := by
  rcases mem_pieces h with h | rfl
  · exact not_mem_piece h
  · exact List.not_mem_nil

theorem text_shape (p : List α) : (shape p).text = p := by
  obtain ⟨q, qs, hcut, htext, hne⟩ := exists_parts p
  by_cases hp : p = []
  · rw [hp, shape_nil]
    rfl
  · rw [shape, hcut, ofParts_cons (hne hp), Shape.text]
    by_cases hq : idle q
    · rcases idle_iff.1 hq with rfl | rfl
      · obtain ⟨r, rs, rfl⟩ := List.exists_cons_of_ne_nil (hne hp rfl)
        rw [List.intercalate_cons_cons] at htext
        exact htext
      · rw [leadOf_dot, opening_dot]
        cases qs with
        | nil => exact htext
        | cons r rs =>
          rw [List.intercalate_cons_cons] at htext
          rw [List.singleton_append, List.intercalate_cons_cons]
          exact htext
    · obtain ⟨hlead, hopening⟩ := opening_of_not_idle (by simpa using hq)
      rw [hlead, hopening]
      exact htext

theorem eq_nil_of_components {p : List α} (h : components p = []) : p = [] := by
  obtain ⟨q, qs, hcut, -, hne⟩ := exists_parts p
  by_contra hp
  rw [components, shape, hcut, ofParts_cons (hne hp)] at h
  by_cases hq : idle q
  · rcases idle_iff.1 hq with rfl | rfl
    · cases h
    · rw [leadOf_dot] at h
      cases h
  · have hname : idle q = false := by simpa using hq
    rw [(opening_of_not_idle hname).1, (opening_of_not_idle hname).2] at h
    simp [Shape.components, Shape.names, hname] at h

/-- The parts of a joined path are those of the directory, but for an empty one at its end, and
those of the path. -/
theorem exists_parts_join (dir : List α) {s : List α} (hs : isAbsolute s = false) :
    ∃ ps, (join dir s).splitOn slash = ps ++ s.splitOn slash ∧
      (dir ≠ [] ∧ dir.splitOn slash = ps ∨ dir.splitOn slash = ps ++ [[]]) := by
  by_cases hlast : dir.getLast? = some slash
  · obtain ⟨front, rfl⟩ := List.getLast?_eq_some_iff.1 hlast
    have hjoin : join (front ++ [slash]) s = front ++ slash :: s := by simp [join, hs]
    refine ⟨front.splitOn slash, by rw [hjoin, List.splitOn_append_cons_self], .inr ?_⟩
    rw [List.splitOn_append_cons_self, List.splitOn_nil]
  · by_cases hdir : dir = []
    · subst hdir
      exact ⟨[], by simp [join, hs], .inr (List.splitOn_nil slash)⟩
    · have hjoin : join dir s = dir ++ slash :: s := by simp [join, hs, hdir, hlast]
      exact ⟨dir.splitOn slash, by rw [hjoin, List.splitOn_append_cons_self], .inl ⟨hdir, rfl⟩⟩

theorem names_of_parts {dir : List α} {ps : List (List α)}
    (h : dir ≠ [] ∧ dir.splitOn slash = ps ∨ dir.splitOn slash = ps ++ [[]]) :
    (shape dir).names = ps.filter (!idle ·) := by
  rw [names_shape]
  rcases h with ⟨-, h⟩ | h <;> rw [h]
  rw [List.filter_append]
  exact List.append_nil _

theorem lead_of_parts {dir q : List α} {qs : List (List α)}
    (h : dir ≠ [] ∧ dir.splitOn slash = q :: qs ∨ dir.splitOn slash = q :: qs ++ [[]]) :
    (shape dir).lead = leadOf q := by
  rw [shape]
  rcases h with ⟨hne, h⟩ | h
  · rw [h, ofParts_cons]
    rintro rfl rfl
    have htext : [slash].intercalate (dir.splitOn slash) = dir := List.intercalate_splitOn slash
    rw [h] at htext
    exact hne htext.symm
  · rw [h, List.cons_append, ofParts_cons (by simp)]

/-! Idle pieces at the ends of a list. -/

theorem trimEnd_isPrefix (ps : List (List α)) : trimEnd ps <+: ps := by
  obtain ⟨front, hf⟩ := List.dropWhile_suffix idle (l := ps.reverse)
  refine ⟨front.reverse, ?_⟩
  rw [trimEnd, ← List.reverse_append, hf, List.reverse_reverse]

theorem filter_trimEnd (ps : List (List α)) :
    (trimEnd ps).filter (!idle ·) = ps.filter (!idle ·) := by
  have hsplit : ps = trimEnd ps ++ (ps.reverse.takeWhile idle).reverse := by
    rw [trimEnd, ← List.reverse_append, List.takeWhile_append_dropWhile, List.reverse_reverse]
  have hnone : (ps.reverse.takeWhile idle).reverse.filter (!idle ·) = [] := by
    rw [List.filter_eq_nil_iff]
    intro p hp
    simpa using List.mem_takeWhile_imp (List.mem_reverse.1 hp)
  have hall := congrArg (List.filter (!idle ·)) hsplit
  rw [List.filter_append, hnone, List.append_nil] at hall
  exact hall.symm

theorem filter_dropWhile_idle (ps : List (List α)) :
    (ps.dropWhile idle).filter (!idle ·) = ps.filter (!idle ·) := by
  induction ps with
  | nil => rfl
  | cons p ps ih =>
    by_cases hp : idle p
    · rw [List.dropWhile_cons_of_pos hp, List.filter_cons_of_neg (by simp [hp]), ih]
    · rw [List.dropWhile_cons_of_neg hp]

/-! Paths from whose pieces the text is put together. -/

/-- A path from whose pieces its text can be cut again. -/
structure Shape.Regular (s : Shape α) : Prop where
  slash : ∀ p ∈ s.pieces, slash ∉ p
  here : s.lead = .here → ∀ p, s.pieces.head? = some p → p = []
  nothing : s.lead = .nothing → ∀ p, s.pieces.head? = some p → idle p = false

theorem Shape.regular_nil (l : Lead) : Shape.Regular (⟨l, []⟩ : Shape α) := by
  constructor <;> simp

theorem regular_opening {q : List α} {qs : List (List α)} (h : ∀ p ∈ q :: qs, slash ∉ p) :
    Shape.Regular ⟨leadOf q, opening q ++ qs⟩ := by
  have hrest : ∀ p ∈ qs, slash ∉ p := fun p hp => h p (List.mem_cons_of_mem q hp)
  by_cases hq : idle q
  · rcases idle_iff.1 hq with rfl | rfl
    · exact ⟨hrest, nofun, nofun⟩
    · rw [leadOf_dot, opening_dot]
      refine ⟨fun p hp => ?_, fun _ p hp => (Option.some.inj hp).symm, nofun⟩
      rcases List.mem_cons.1 hp with rfl | hp
      · exact List.not_mem_nil
      · exact hrest p hp
  · have hname : idle q = false := by simpa using hq
    rw [(opening_of_not_idle hname).1, (opening_of_not_idle hname).2]
    refine ⟨h, nofun, fun _ p hp => ?_⟩
    cases hp
    exact hname

theorem regular_shape {p : List α} (hp : p ≠ []) : (shape p).Regular := by
  obtain ⟨q, qs, hcut, -, hne⟩ := exists_parts p
  rw [shape, hcut, ofParts_cons (hne hp)]
  exact regular_opening fun r hr => not_mem_piece (hcut ▸ hr)

theorem Shape.Regular.front {l : Lead} {ps qs : List (List α)} (h : Regular ⟨l, qs⟩)
    (hp : ps <+: qs) : Regular ⟨l, ps⟩ := by
  have hhead : ∀ p, ps.head? = some p → qs.head? = some p := by
    intro p hfirst
    obtain ⟨rest, rfl⟩ := hp
    rw [List.head?_append, hfirst, Option.some_or]
  exact ⟨fun p hm => h.slash p (hp.subset hm), fun hl p hfirst => h.here hl p (hhead p hfirst),
    fun hl p hfirst => h.nothing hl p (hhead p hfirst)⟩

theorem filter_parts {ps : List (List α)} (h : ∀ p ∈ ps, slash ∉ p) :
    (([slash].intercalate ps).splitOn slash).filter (!idle ·) = ps.filter (!idle ·) := by
  cases ps with
  | nil => rfl
  | cons p ps => rw [List.splitOn_intercalate slash h (List.cons_ne_nil p ps)]

/-- A path without pieces has an empty one when it is cut again. -/
theorem shape_text {s : Shape α} (hs : s.Regular) :
    shape s.text = if s.pieces = [] then ⟨s.lead, [[]]⟩ else s := by
  obtain ⟨l, ps⟩ := s
  cases ps with
  | nil =>
    cases l with
    | root => exact (shape_slash_cons []).trans (by rw [List.splitOn_nil]; rfl)
    | here => exact shape_dot
    | nothing => exact shape_nil
  | cons p ps =>
    have hcut : ([slash].intercalate (p :: ps)).splitOn slash = p :: ps :=
      List.splitOn_intercalate slash hs.slash (List.cons_ne_nil p ps)
    rw [if_neg (List.cons_ne_nil p ps)]
    cases l with
    | root => exact (shape_slash_cons _).trans (congrArg (Shape.mk .root) hcut)
    | here =>
      obtain rfl := hs.here rfl p rfl
      cases ps with
      | nil => exact shape_dot
      | cons q qs =>
        have hrest : ∀ p ∈ q :: qs, slash ∉ p := fun p hp => hs.slash p (List.mem_cons_of_mem _ hp)
        have hcut : ([slash].intercalate (q :: qs)).splitOn slash = q :: qs :=
          List.splitOn_intercalate slash hrest (List.cons_ne_nil q qs)
        rw [Shape.text, List.intercalate_cons_cons]
        exact (shape_dot_slash _).trans (congrArg (fun ps => Shape.mk .here ([] :: ps)) hcut)
    | nothing =>
      have hname := opening_of_not_idle (hs.nothing rfl p rfl)
      have hne : p ≠ [] := by
        rintro rfl
        cases hs.nothing rfl [] rfl
      have htext : (Shape.text ⟨.nothing, p :: ps⟩).splitOn slash = p :: ps := hcut
      rw [shape, htext, ofParts_cons fun h => absurd h hne, hname.1, hname.2]
      rfl

theorem components_text {s : Shape α} (hs : s.Regular) : components s.text = s.components := by
  rw [components, shape_text hs]
  obtain ⟨l, ps⟩ := s
  cases ps <;> rfl

/-! Paths with the same components. -/

theorem component_inj {p q : List α} (h : component p = component q) : p = q := by
  unfold component at h
  split at h <;> split at h <;> simp_all

theorem component_ne_lead (p : List α) (l : Lead) : component p ≠ .lead l := by
  unfold component
  split <;> nofun

theorem Shape.components_inj {s t : Shape α} (h : s.components = t.components) :
    s.lead = t.lead ∧ s.names = t.names := by
  have hnames {ps qs : List (List α)} (h : ps.map component = qs.map component) : ps = qs :=
    (List.map_inj_right fun _ _ => component_inj).1 h
  have hlead {l : Lead} {ps : List (List α)} {cs : List (Component α)}
      (h : ps.map component = .lead l :: cs) : False := by
    have hmem : Component.lead l ∈ ps.map component := h ▸ List.mem_cons_self
    obtain ⟨p, -, hp⟩ := List.mem_map.1 hmem
    exact component_ne_lead p l hp
  obtain ⟨l, ps⟩ := s
  obtain ⟨m, qs⟩ := t
  cases l <;> cases m
  case root.root | here.here => exact ⟨rfl, hnames (List.cons.inj h).2⟩
  case nothing.nothing => exact ⟨rfl, hnames h⟩
  case root.here | here.root => cases (List.cons.inj h).1
  case root.nothing | here.nothing => exact (hlead h.symm).elim
  case nothing.root | nothing.here => exact (hlead h).elim

theorem Shape.components_prefix_iff {s t : Shape α} (hs : s.components ≠ []) :
    s.components <+: t.components ↔ s.lead = t.lead ∧ s.names <+: t.names := by
  have hnames {ps qs : List (List α)} : ps.map component <+: qs.map component ↔ ps <+: qs := by
    rw [List.prefix_map_iff]
    constructor
    · rintro ⟨rs, hrs, he⟩
      rwa [(List.map_inj_right fun _ _ => component_inj).1 he]
    · exact fun h => ⟨ps, h, rfl⟩
  have hlead {l : Lead} {ps : List (List α)} (h : .lead l ∈ ps.map component) : False := by
    obtain ⟨p, -, hp⟩ := List.mem_map.1 h
    exact component_ne_lead p l hp
  obtain ⟨l, ps⟩ := s
  obtain ⟨m, qs⟩ := t
  cases l <;> cases m
  case root.root | here.here =>
    exact ⟨fun h => ⟨rfl, hnames.1 (List.cons_prefix_cons.1 h).2⟩,
      fun h => List.cons_prefix_cons.2 ⟨rfl, hnames.2 h.2⟩⟩
  case nothing.nothing => exact ⟨fun h => ⟨rfl, hnames.1 h⟩, fun h => hnames.2 h.2⟩
  case root.here | here.root =>
    exact iff_of_false (fun h => nomatch (List.cons_prefix_cons.1 h).1) fun h => nomatch h.1
  case root.nothing | here.nothing =>
    exact iff_of_false (fun h => hlead (h.subset List.mem_cons_self)) fun h => nomatch h.1
  case nothing.root | nothing.here =>
    refine iff_of_false (fun h => ?_) fun h => nomatch h.1
    obtain ⟨c, cs, hc⟩ := List.exists_cons_of_ne_nil hs
    rw [hc] at h
    obtain ⟨rfl, -⟩ := List.cons_prefix_cons.1 h
    exact hlead (hc ▸ List.mem_cons_self)

end Path

end Jukebox
