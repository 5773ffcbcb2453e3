import Mathlib.Data.List.Forall2
import Jukebox.Text.Basic

set_option autoImplicit false

namespace Jukebox

def Apart (s t : Text) : Prop := ¬s <+: t ∧ ¬t <+: s

instance (s t : Text) : Decidable (Apart s t) := inferInstanceAs (Decidable (_ ∧ _))

theorem Apart.symm {s t : Text} (h : Apart s t) : Apart t s := ⟨h.2, h.1⟩

theorem Apart.not_prefix {s t : Text} (h : Apart s t) (u : Text) : ¬s <+: t ++ u := fun hs =>
  (List.prefix_or_prefix_of_prefix hs (List.prefix_append t u)).elim h.1 h.2

theorem Apart.append_ne {s t : Text} (h : Apart s t) (u v : Text) : s ++ u ≠ t ++ v := fun he =>
  h.not_prefix v ⟨u, he⟩

theorem span_cancel {p : Char → Bool} {s s' t t' : Text} (hs : ∀ c ∈ s, p c) (ht : ∀ c ∈ t, p c)
    (hs' : ∀ c, s'.head? = some c → p c = false) (ht' : ∀ c, t'.head? = some c → p c = false)
    (h : s ++ s' = t ++ t') : s = t ∧ s' = t' := by
  obtain ⟨htake, hdrop⟩ := Text.takeWhile_dropWhile_append hs hs'
  obtain ⟨htake', hdrop'⟩ := Text.takeWhile_dropWhile_append ht ht'
  rw [h] at htake hdrop
  exact ⟨htake.symm.trans htake', hdrop.symm.trans hdrop'⟩

section Cancel

variable {α : Type} {R : α → α → Prop} {f : α → Text} {as bs : List α} {s t : Text}

theorem code_cancel (hfree : ∀ a b, f a <+: f b → a = b) {a b : α} (h : f a ++ s = f b ++ t) :
    a = b ∧ s = t := by
  have ha : f a <+: f b ++ t := ⟨s, h⟩
  have hab : a = b := (List.prefix_or_prefix_of_prefix ha (List.prefix_append (f b) t)).elim
    (hfree a b) fun hb => (hfree b a hb).symm
  subst hab
  exact ⟨rfl, List.append_cancel_left h⟩

theorem of_flatMap_append {P : Text → Prop} (hP : ∀ a s, P (f a ++ s)) (as : List α) (hs : P s) :
    P (as.flatMap f ++ s) := by
  cases as with
  | nil => exact hs
  | cons a as =>
    rw [List.flatMap_cons, List.append_assoc]
    exact hP a _

theorem map_cancel (hone : ∀ a ∈ as, ∀ b ∈ bs, f a = f b → a = b) (h : as.map f = bs.map f) :
    as = bs := by
  induction as generalizing bs with
  | nil => exact (List.map_eq_nil_iff.1 h.symm).symm
  | cons a as ih =>
    obtain ⟨b, bs, rfl, hab, hrest⟩ := List.map_eq_cons_iff.1 h.symm
    rw [hone a List.mem_cons_self b List.mem_cons_self hab.symm,
      ih (fun a ha b hb => hone a (List.mem_cons_of_mem _ ha) b (List.mem_cons_of_mem _ hb))
        hrest.symm]

/-- Parts follow each other up to a text that starts like none of them. Where a part ends may show
only by what comes after it. -/
theorem flatMap_cancel_of {P : Text → Prop} (hP : ∀ a s, P (f a ++ s))
    (hone : ∀ a ∈ as, ∀ b ∈ bs, ∀ s t, P s → P t → f a ++ s = f b ++ t → R a b ∧ s = t)
    (hs : ∀ b ∈ bs, ¬f b <+: s) (ht : ∀ a ∈ as, ¬f a <+: t) (hPs : P s) (hPt : P t)
    (h : as.flatMap f ++ s = bs.flatMap f ++ t) : List.Forall₂ R as bs ∧ s = t := by
  induction as generalizing bs with
  | nil =>
    cases bs with
    | nil => exact ⟨.nil, h⟩
    | cons b bs =>
      rw [List.flatMap_cons, List.append_assoc] at h
      exact absurd ⟨_, h.symm⟩ (hs b List.mem_cons_self)
  | cons a as ih =>
    cases bs with
    | nil =>
      rw [List.flatMap_cons, List.append_assoc] at h
      exact absurd ⟨_, h⟩ (ht a List.mem_cons_self)
    | cons b bs =>
      rw [List.flatMap_cons, List.flatMap_cons, List.append_assoc, List.append_assoc] at h
      obtain ⟨hab, h⟩ := hone a List.mem_cons_self b List.mem_cons_self _ _
        (of_flatMap_append hP as hPs) (of_flatMap_append hP bs hPt) h
      obtain ⟨hall, he⟩ := ih
        (fun a ha b hb => hone a (List.mem_cons_of_mem _ ha) b (List.mem_cons_of_mem _ hb))
        (fun b hb => hs b (List.mem_cons_of_mem _ hb))
        (fun a ha => ht a (List.mem_cons_of_mem _ ha)) h
      exact ⟨.cons hab hall, he⟩

theorem flatMap_cancel
    (hone : ∀ a ∈ as, ∀ b ∈ bs, ∀ s t, f a ++ s = f b ++ t → R a b ∧ s = t)
    (hs : ∀ b ∈ bs, ¬f b <+: s) (ht : ∀ a ∈ as, ¬f a <+: t)
    (h : as.flatMap f ++ s = bs.flatMap f ++ t) : List.Forall₂ R as bs ∧ s = t :=
  flatMap_cancel_of (P := fun _ => True) (fun _ _ => trivial)
    (fun a ha b hb s t _ _ => hone a ha b hb s t) hs ht trivial trivial h

theorem join_cons (sep : String) (t : Text) (ts : List Text) :
    Text.join sep (t :: ts) = t ++ ts.flatMap (sep.toList ++ ·) := by
  induction ts generalizing t with
  | nil => simp [Text.join]
  | cons u ts ih =>
    have hrest : Text.join sep (t :: u :: ts) = t ++ sep.toList ++ Text.join sep (u :: ts) :=
      List.intercalate_cons_cons
    rw [hrest, ih, List.flatMap_cons, List.append_assoc, List.append_assoc]

theorem Text.mem_join {sep : String} {c : Char} {ts : List Text} (h : c ∈ join sep ts) :
    c ∈ sep.toList ∨ ∃ t ∈ ts, c ∈ t := by
  cases ts with
  | nil => cases h
  | cons t ts =>
    rw [join_cons, List.mem_append, List.mem_flatMap] at h
    rcases h with h | ⟨u, hu, h⟩
    · exact .inr ⟨t, List.mem_cons_self, h⟩
    · exact (List.mem_append.1 h).imp_right fun h => ⟨u, List.mem_cons_of_mem t hu, h⟩

/-- Parts with separators between them, up to a text that does not start with the separator. -/
theorem join_cancel_of {P : Text → Prop} {a b : α} {sep : String}
    (hP : ∀ s, P (sep.toList ++ s))
    (hone : ∀ c ∈ a :: as, ∀ d ∈ b :: bs, ∀ s t, P s → P t → f c ++ s = f d ++ t → R c d ∧ s = t)
    (hs : ¬sep.toList <+: s) (ht : ¬sep.toList <+: t) (hPs : P s) (hPt : P t)
    (h : Text.join sep ((a :: as).map f) ++ s = Text.join sep ((b :: bs).map f) ++ t) :
    List.Forall₂ R (a :: as) (b :: bs) ∧ s = t := by
  rw [List.map_cons, List.map_cons, join_cons, join_cons, List.flatMap_map, List.flatMap_map,
    List.append_assoc, List.append_assoc] at h
  have hP' (c : α) (u : Text) : P ((sep.toList ++ f c) ++ u) := by
    rw [List.append_assoc]
    exact hP _
  have hstop {u : Text} (hu : ¬sep.toList <+: u) (c : α) : ¬sep.toList ++ f c <+: u :=
    fun hc => hu ((List.prefix_append _ _).trans hc)
  obtain ⟨hab, h⟩ := hone a List.mem_cons_self b List.mem_cons_self _ _
    (of_flatMap_append hP' as hPs) (of_flatMap_append hP' bs hPt) h
  obtain ⟨hall, he⟩ := flatMap_cancel_of (R := R) (P := P) hP' (fun c hc d hd s t hs ht he => by
      rw [List.append_assoc, List.append_assoc] at he
      exact hone c (List.mem_cons_of_mem _ hc) d (List.mem_cons_of_mem _ hd) s t hs ht
        (List.append_cancel_left he)) (fun d _ => hstop hs d) (fun c _ => hstop ht c) hPs hPt h
  exact ⟨.cons hab hall, he⟩

theorem join_cancel {a b : α} {sep : String}
    (hone : ∀ c ∈ a :: as, ∀ d ∈ b :: bs, ∀ s t, f c ++ s = f d ++ t → R c d ∧ s = t)
    (hs : ¬sep.toList <+: s) (ht : ¬sep.toList <+: t)
    (h : Text.join sep ((a :: as).map f) ++ s = Text.join sep ((b :: bs).map f) ++ t) :
    List.Forall₂ R (a :: as) (b :: bs) ∧ s = t :=
  join_cancel_of (P := fun _ => True) (fun _ => trivial)
    (fun c hc d hd s t _ _ => hone c hc d hd s t) hs ht trivial trivial h

end Cancel

/-! Lines, each with a break after it. -/

def Shown (t : Text) : Prop := ∀ c ∈ t, 32 ≤ c.toNat

instance : DecidablePred Shown := fun t => List.decidableBAll (fun c : Char => 32 ≤ c.toNat) t

theorem shown_append {s t : Text} : Shown (s ++ t) ↔ Shown s ∧ Shown t := List.forall_mem_append

theorem Shown.not_mem {t : Text} (h : Shown t) {c : Char} (hc : c.toNat < 32) : c ∉ t :=
  fun hmem => absurd (h c hmem) (Nat.not_le.2 hc)

theorem Shown.join {sep : String} {ts : List Text} (hsep : Shown sep.toList)
    (h : ∀ t ∈ ts, Shown t) : Shown (Text.join sep ts) := fun c hc =>
  (Text.mem_join hc).elim (hsep c) fun ⟨t, ht, hct⟩ => h t ht c hct

theorem flatMap_break (ls : List Text) :
    ls.flatMap (· ++ ['\n']) = ['\n'].intercalate (ls ++ [[]]) := by
  induction ls with
  | nil => rfl
  | cons l ls ih =>
    rw [List.flatMap_cons, List.cons_append, List.intercalate_cons_of_ne_nil (by simp), ih]

theorem Text.lines_flatMap {ls : List Text} (h : ∀ l ∈ ls, Shown l) :
    lines (ls.flatMap (· ++ ['\n'])) = ls := by
  have hsplit : (ls.flatMap (· ++ ['\n'])).splitOn '\n' = ls ++ [[]] := by
    rw [flatMap_break]
    refine List.splitOn_intercalate '\n' (fun l hl => ?_) (by simp)
    rcases List.mem_append.1 hl with hl | hl
    · exact (h l hl).not_mem (by decide)
    · rw [List.mem_singleton.1 hl]
      nofun
  have hreturn : ∀ l ∈ ls, (if l.getLast? = some '\r' then l.dropLast else l) = l :=
    fun l hl => if_neg fun hr => (h l hl).not_mem (by decide) (List.mem_of_getLast? hr)
  rw [lines, hsplit, List.dropLast_concat, List.getLast?_concat, List.map_congr_left hreturn,
    List.map_id']

/-! Blocks of lines, each with a tag that its lines start with. -/

section Blocks

variable {blocks more : List (Text × List Text)}

/-- Each line starts with the tag of its block, and no line with the tag of another. -/
structure Tagged (blocks : List (Text × List Text)) : Prop where
  starts : ∀ b ∈ blocks, ∀ l ∈ b.2, b.1 <+: l
  apart : (blocks.map Prod.fst).Pairwise Apart

theorem Apart.filter_eq_nil {tag other : Text} (h : Apart tag other) {ls : List Text}
    (hls : ∀ l ∈ ls, other <+: l) : ls.filter (Text.startsWith tag) = [] := by
  rw [List.filter_eq_nil_iff]
  intro l hl hs
  obtain ⟨u, rfl⟩ := hls l hl
  exact h.not_prefix u (Text.startsWith_iff.1 hs)

theorem Tagged.filter_eq (h : Tagged blocks) {b : Text × List Text} (hb : b ∈ blocks) :
    (blocks.flatMap Prod.snd).filter (Text.startsWith b.1) = b.2 := by
  induction blocks with
  | nil => cases hb
  | cons c blocks ih =>
    obtain ⟨hstarts, hapart⟩ := h
    rw [List.map_cons, List.pairwise_cons] at hapart
    have hrest : Tagged blocks := ⟨fun d hd => hstarts d (List.mem_cons_of_mem c hd), hapart.2⟩
    rw [List.flatMap_cons, List.filter_append]
    rcases List.mem_cons.1 hb with rfl | hb
    · have hothers : (blocks.flatMap Prod.snd).filter (Text.startsWith b.1) = [] := by
        rw [List.filter_flatMap, List.flatMap_eq_nil_iff]
        exact fun d hd =>
          (hapart.1 d.1 (List.mem_map_of_mem hd)).filter_eq_nil (hrest.starts d hd)
      rw [hothers, List.append_nil, List.filter_eq_self]
      exact fun l hl => Text.startsWith_iff.2 (hstarts b List.mem_cons_self l hl)
    · have hbc : Apart b.1 c.1 := (hapart.1 b.1 (List.mem_map_of_mem hb)).symm
      rw [ih hrest hb, hbc.filter_eq_nil (hstarts c List.mem_cons_self), List.nil_append]

theorem Tagged.eq_map (h : Tagged blocks) : blocks = (blocks.map Prod.fst).map fun tag =>
    (tag, (blocks.flatMap Prod.snd).filter (Text.startsWith tag)) := by
  rw [List.map_map]
  exact (List.map_id blocks).symm.trans
    (List.map_congr_left fun b hb => Prod.ext rfl (h.filter_eq hb).symm)

theorem Tagged.blocks_eq (h : Tagged blocks) (h' : Tagged more)
    (htags : blocks.map Prod.fst = more.map Prod.fst)
    (he : blocks.flatMap Prod.snd = more.flatMap Prod.snd) : blocks = more := by
  have hblocks := h.eq_map
  rw [htags, he] at hblocks
  exact hblocks.trans h'.eq_map.symm

end Blocks

end Jukebox
