import Mathlib.Data.List.Infix
import Mathlib.Data.List.Nodup
import Jukebox.Proofs.Path.Pieces

/-!
The directories that a path lies in. Each leaves out one component more, up to where the path starts
from. A name in a directory lies in that directory, however that is written.
-/

set_option autoImplicit false

namespace Jukebox

namespace Path

variable {α : Type} [DecidableEq α] [Alphabet α]

structure IsFileName (n : List α) : Prop where
  noSlash : slash ∉ n
  idle : idle n = false
  up : n ≠ [dot, dot]

variable {n : List α}

theorem IsFileName.splitOn (hn : IsFileName n) : n.splitOn slash = [n] := by
  have hslash : ∀ p ∈ [n], slash ∉ p := by simpa using hn.noSlash
  have hcut := List.splitOn_intercalate slash hslash (List.cons_ne_nil n [])
  rwa [List.intercalate_singleton] at hcut

theorem IsFileName.not_isAbsolute (hn : IsFileName n) : isAbsolute n = false := by
  cases n with
  | nil => rfl
  | cons c n =>
    have hc : c ≠ slash := fun h => hn.noSlash (h ▸ List.mem_cons_self)
    simpa [isAbsolute] using hc

/-- The path of a name in a directory, cut into the pieces of the directory and the name. -/
theorem shape_join (dir : List α) (hn : IsFileName n) :
    ∃ front, shape (join dir n) = ⟨(shape dir).lead, front ++ [n]⟩ ∧
      Shape.Regular ⟨(shape dir).lead, front⟩ ∧ front.filter (!idle ·) = (shape dir).names := by
  obtain ⟨ps, hjoin, hdir⟩ := exists_parts_join dir hn.not_isAbsolute
  rw [hn.splitOn] at hjoin
  rw [names_of_parts hdir, shape, hjoin]
  cases ps with
  | nil =>
    have hcut : dir.splitOn slash = [[]] :=
      hdir.elim (fun h => absurd h.2 (List.splitOn_ne_nil slash dir)) id
    have hlead : (shape dir).lead = .nothing := by rw [shape, hcut, ofParts, if_pos ⟨rfl, rfl⟩]
    have hname := opening_of_not_idle hn.idle
    rw [hlead, List.nil_append, ofParts_cons (by rintro rfl; cases hn.idle), hname.1, hname.2]
    exact ⟨[], rfl, Shape.regular_nil _, rfl⟩
  | cons q qs =>
    have hslash : ∀ p ∈ q :: qs, slash ∉ p := fun p hp =>
      not_mem_piece (t := join dir n) (hjoin ▸ List.mem_append_left _ hp)
    rw [lead_of_parts hdir, List.cons_append, ofParts_cons (by simp), ← List.append_assoc]
    exact ⟨opening q ++ qs, rfl, regular_opening hslash, filter_opening q qs⟩

theorem components_join (dir : List α) (hn : IsFileName n) :
    components (join dir n) = components dir ++ [.name n] := by
  obtain ⟨front, hshape, -, hnames⟩ := shape_join dir hn
  rw [components, components, hshape, Shape.components, Shape.components, ← hnames, Shape.names,
    List.filter_append, List.map_append, ← List.append_assoc]
  simp [hn.idle, component, hn.up]

theorem parent?_join (dir : List α) (hn : IsFileName n) :
    ∃ parent, parent? (join dir n) = some parent ∧ components parent = components dir := by
  obtain ⟨front, hshape, hregular, hnames⟩ := shape_join dir hn
  refine ⟨Shape.text ⟨(shape dir).lead, trimEnd front⟩, ?_, ?_⟩
  · rw [parent?, parents, hshape, List.reverse_append, List.reverse_singleton,
      List.singleton_append, parentsFrom, if_neg (by simp [hn.idle])]
    rfl
  · rw [components_text (hregular.front (trimEnd_isPrefix front)), components, Shape.components,
      Shape.components, Shape.names, filter_trimEnd, hnames]

theorem isAbsolute_iff_lead {p : List α} : isAbsolute p ↔ (shape p).lead = .root := by
  obtain ⟨q, qs, hcut, htext, hne⟩ := exists_parts p
  by_cases hp : p = []
  · subst hp
    simp [isAbsolute, shape_nil]
  · rw [shape, hcut, ofParts_cons (hne hp)]
    cases q with
    | nil =>
      obtain ⟨r, rs, rfl⟩ := List.exists_cons_of_ne_nil (hne hp rfl)
      rw [List.intercalate_cons_cons] at htext
      exact iff_of_true (by rw [← htext]; simp [isAbsolute]) rfl
    | cons c q =>
      have hslash : c ≠ slash := fun h =>
        not_mem_piece (hcut ▸ List.mem_cons_self) (h ▸ List.mem_cons_self)
      have hlead : leadOf (c :: q) ≠ .root := by
        rw [leadOf, if_neg (List.cons_ne_nil c q)]
        split <;> simp
      refine iff_of_false ?_ hlead
      rw [← htext]
      cases qs <;> simpa [isAbsolute, List.intercalate_cons_cons] using hslash

theorem parentsFrom_dropWhile (l : Lead) (ps : List (List α)) :
    parentsFrom l (ps.dropWhile idle) = parentsFrom l ps := by
  induction ps with
  | nil => rfl
  | cons p ps ih =>
    cases hp : idle p with
    | true => rw [List.dropWhile_cons_of_pos hp, ih, parentsFrom, if_pos hp]
    | false => rw [List.dropWhile_cons_of_neg (by simp [hp])]

/-- The first directory that a path lies in leaves out its last component, and lies in the others.
The pieces are given from the last one on, and pieces that name nothing are passed over. -/
theorem parentsFrom_eq_cons {l : Lead} {ps : List (List α)} (hps : Shape.Regular ⟨l, ps.reverse⟩)
    {q : List α} {qs : List (List α)} (h : parentsFrom l ps = q :: qs) :
    qs = parents q ∧ components q = (Shape.components ⟨l, ps.reverse⟩).dropLast ∧
      Shape.components ⟨l, ps.reverse⟩ ≠ [] := by
  induction ps with
  | nil =>
    cases l with
    | root => cases h
    | nothing => cases h
    | here =>
      cases h
      exact ⟨rfl, rfl, List.cons_ne_nil _ _⟩
  | cons p ps ih =>
    rw [List.reverse_cons] at hps ⊢
    have hfront : Shape.Regular ⟨l, ps.reverse⟩ := hps.front (List.prefix_append _ _)
    rw [parentsFrom] at h
    cases hp : idle p with
    | true =>
      rw [if_pos hp] at h
      have hcomponents : Shape.components ⟨l, ps.reverse ++ [p]⟩ =
          Shape.components ⟨l, ps.reverse⟩ := by
        simp [Shape.components, Shape.names, hp]
      rw [hcomponents]
      exact ih hfront h
    | false =>
      rw [if_neg (by simp [hp])] at h
      obtain ⟨rfl, rfl⟩ := List.cons.inj h
      have hregular : Shape.Regular ⟨l, (ps.dropWhile idle).reverse⟩ := by
        have htrim := hfront.front (trimEnd_isPrefix ps.reverse)
        rwa [trimEnd, List.reverse_reverse] at htrim
      have hcomponents : Shape.components ⟨l, ps.reverse ++ [p]⟩ =
          Shape.components ⟨l, (ps.dropWhile idle).reverse⟩ ++ [component p] := by
        simp [Shape.components, Shape.names, hp, List.filter_reverse, filter_dropWhile_idle]
      rw [hcomponents, components_text hregular, List.dropLast_concat]
      refine ⟨?_, rfl, by simp⟩
      rw [← parentsFrom_dropWhile l ps, parents, shape_text hregular]
      by_cases hnil : ps.dropWhile idle = []
      · rw [hnil]
        rfl
      · rw [if_neg (by simpa using hnil), List.reverse_reverse]

theorem parentsFrom_root_eq_nil {ps : List (List α)} (h : parentsFrom .root ps = []) :
    ps.filter (!idle ·) = [] := by
  induction ps with
  | nil => rfl
  | cons p ps ih =>
    rw [parentsFrom] at h
    cases hp : idle p with
    | true =>
      rw [if_pos hp] at h
      rw [List.filter_cons_of_neg (by simp [hp]), ih h]
    | false =>
      rw [if_neg (by simp [hp])] at h
      cases h

theorem parents_eq_cons {p q : List α} {qs : List (List α)} (h : parents p = q :: qs) :
    qs = parents q ∧ components q = (components p).dropLast ∧ components p ≠ [] := by
  have hp : p ≠ [] := by
    rintro rfl
    cases h
  have hregular : Shape.Regular ⟨(shape p).lead, (shape p).pieces.reverse.reverse⟩ := by
    rw [List.reverse_reverse]
    exact regular_shape hp
  have hcons := parentsFrom_eq_cons hregular h
  rwa [List.reverse_reverse] at hcons

theorem isAbsolute_of_mem_parents {p q : List α} (hp : isAbsolute p) (h : q ∈ parents p) :
    isAbsolute q := by
  rw [parents, isAbsolute_iff_lead.1 hp] at h
  revert h
  generalize (shape p).pieces.reverse = ps
  intro h
  induction ps with
  | nil => cases h
  | cons r ps ih =>
    rw [parentsFrom] at h
    split at h
    · exact ih h
    · rcases List.mem_cons.1 h with rfl | h
      · simp [isAbsolute, Shape.text, Lead.text]
      · exact ih h

theorem components_of_root {p : List α} (h : isAbsolute p) :
    components p = .lead .root :: (shape p).names.map component := by
  rw [components, Shape.components, isAbsolute_iff_lead.1 h]
  rfl

theorem components_of_parents_eq_nil {p : List α} (hp : isAbsolute p) (h : parents p = []) :
    components p = [.lead .root] := by
  rw [parents, isAbsolute_iff_lead.1 hp] at h
  have hnames := parentsFrom_root_eq_nil h
  rw [List.filter_reverse, List.reverse_eq_nil_iff] at hnames
  rw [components_of_root hp, Shape.names, hnames, List.map_nil]

/-- The directories from a path up to the root have all the beginnings of its components. -/
theorem components_parents {p : List α} (hp : isAbsolute p) :
    (p :: parents p).map components = (components p).inits.tail.reverse := by
  generalize hqs : parents p = qs
  induction qs generalizing p with
  | nil =>
    rw [List.map_singleton, components_of_parents_eq_nil hp hqs]
    rfl
  | cons q qs ih =>
    obtain ⟨hparents, hdrop, hne⟩ := parents_eq_cons hqs
    have hq : isAbsolute q := isAbsolute_of_mem_parents hp (hqs ▸ List.mem_cons_self)
    obtain ⟨cs, c, hcs⟩ := List.eq_nil_or_concat (components p) |>.resolve_left hne
    rw [List.concat_eq_append] at hcs
    rw [hcs, List.dropLast_concat] at hdrop
    have hinits : (cs ++ [c]).inits.tail = cs.inits.tail ++ [cs ++ [c]] := by
      rw [List.inits_append, List.tail_append_of_ne_nil (by cases cs <;> simp)]
      rfl
    rw [List.map_cons, ih hq hparents.symm, hdrop, hcs, hinits, List.reverse_concat']

theorem components_of_mem_parents {p q : List α} (h : q ∈ parents p) :
    components q <+: components p ∧ (components q).length < (components p).length := by
  generalize hrs : parents p = rs at h
  induction rs generalizing p with
  | nil => cases h
  | cons r rs ih =>
    obtain ⟨hparents, hdrop, hne⟩ := parents_eq_cons hrs
    have hfront : components r <+: components p := hdrop ▸ List.dropLast_prefix _
    have hlength : (components r).length < (components p).length := by
      rw [hdrop, List.length_dropLast]
      exact Nat.sub_lt (List.length_pos_iff.2 hne) Nat.one_pos
    rcases List.mem_cons.1 h with rfl | h
    · exact ⟨hfront, hlength⟩
    · obtain ⟨hq, hshorter⟩ := ih hparents.symm h
      exact ⟨hq.trans hfront, Nat.lt_trans hshorter hlength⟩

theorem components_of_mem_chain {p q : List α} (h : q ∈ p :: parents p) :
    components q <+: components p := by
  rcases List.mem_cons.1 h with rfl | h
  · exact List.prefix_rfl
  · exact (components_of_mem_parents h).1

theorem isAbsolute_of_mem_chain {p q : List α} (hp : isAbsolute p) (h : q ∈ p :: parents p) :
    isAbsolute q := by
  rcases List.mem_cons.1 h with rfl | h
  · exact hp
  · exact isAbsolute_of_mem_parents hp h

theorem pairwise_parents (p : List α) : (p :: parents p).Pairwise fun q r => r ∈ parents q := by
  generalize hqs : parents p = qs
  induction qs generalizing p with
  | nil => exact List.pairwise_singleton _ p
  | cons q qs ih =>
    exact List.pairwise_cons.2 ⟨fun r hr => hqs ▸ hr, ih q (parents_eq_cons hqs).1.symm⟩

theorem pairwise_components (p : List α) :
    (p :: parents p).Pairwise fun q r => components q ≠ components r := by
  refine (pairwise_parents p).imp fun hr hsame => ?_
  have hshorter := (components_of_mem_parents hr).2
  rw [hsame] at hshorter
  exact Nat.lt_irrefl _ hshorter

theorem eq_of_components_eq {p q r : List α} (hq : q ∈ p :: parents p) (hr : r ∈ p :: parents p)
    (h : components q = components r) : q = r :=
  List.inj_on_of_nodup_map (List.pairwise_map.2 (pairwise_components p)) hq hr h

/-- Of the directories up to the root, those after one are those that it lies in. -/
theorem parents_of_split {p q : List α} {front back : List (List α)}
    (h : p :: parents p = front ++ q :: back) : back = parents q ∧ ∀ r ∈ front, q ∈ parents r := by
  induction front generalizing p with
  | nil =>
    obtain ⟨rfl, rfl⟩ := List.cons.inj h
    exact ⟨rfl, nofun⟩
  | cons r front ih =>
    obtain ⟨rfl, hrest⟩ := List.cons.inj h
    have hq : q ∈ parents p := hrest ▸ List.mem_append_cons_self
    obtain ⟨r, rs, hrs⟩ := List.exists_cons_of_ne_nil (List.ne_nil_of_mem hq)
    rw [hrs, (parents_eq_cons hrs).1] at hrest
    obtain ⟨hback, hfront⟩ := ih hrest
    exact ⟨hback, List.forall_mem_cons.2 ⟨hq, hfront⟩⟩

end Path

end Jukebox
