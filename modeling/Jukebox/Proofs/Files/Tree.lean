import Mathlib.Tactic.Common
import Jukebox.Files

set_option autoImplicit false

namespace Jukebox

namespace Files

variable {fs gs : Files} {key k : List Text} {e : Entry}

theorem entry?_of_ne_nil (fs : Files) (h : key ≠ []) : fs.entry? key = fs.entries.lookup key := by
  cases key with
  | nil => exact absurd rfl h
  | cons n key => rfl

theorem lookup_filter_of_ne {es : List (List Text × Entry)} (h : k ≠ key) :
    (es.filter (·.1 ≠ key)).lookup k = es.lookup k := by
  induction es with
  | nil => rfl
  | cons e es ih =>
    obtain ⟨n, e⟩ := e
    by_cases hn : n = key
    · have hk : (k == n) = false := by simpa [hn] using h
      rw [List.filter_cons_of_neg (by simp [hn]), List.lookup_cons, hk, ih]
    · rw [List.filter_cons_of_pos (by simp [hn]), List.lookup_cons, List.lookup_cons, ih]

theorem lookup_filter_self (es : List (List Text × Entry)) (key : List Text) :
    (es.filter (·.1 ≠ key)).lookup key = none := by
  rw [List.lookup_eq_none_iff]
  intro e he
  have hne : e.1 ≠ key := of_decide_eq_true (List.mem_filter.1 he).2
  exact bne_iff_ne.2 hne.symm

theorem entry?_set_self (fs : Files) (h : key ≠ []) (e : Entry) :
    entry? (fs.set key e) key = some e := by
  rw [entry?_of_ne_nil _ h, set, List.lookup_append, lookup_filter_self, Option.none_or,
    List.lookup_cons_self]

theorem entry?_set_of_ne (fs : Files) (h : k ≠ key) (e : Entry) :
    entry? (fs.set key e) k = fs.entry? k := by
  by_cases hk : k = []
  · subst hk
    rfl
  · have hbeq : (k == key) = false := by simpa using h
    rw [entry?_of_ne_nil _ hk, entry?_of_ne_nil _ hk, set, List.lookup_append,
      lookup_filter_of_ne h, List.lookup_cons, hbeq, List.lookup_nil, Option.or_none]

theorem ne_nil_of_entry? (h : fs.entry? key ≠ some .directory) : key ≠ [] := by
  rintro rfl
  exact h rfl

theorem hasDirectory_iff : fs.hasDirectory key ↔ fs.entry? key = some .directory := by
  rw [hasDirectory, beq_iff_eq]

/-- Wherever something is found in the first tree it is found in the second, and directories stay
directories. -/
structure Grows (fs gs : Files) : Prop where
  entry : ∀ key, (fs.entry? key).isSome → (gs.entry? key).isSome
  directory : ∀ key, fs.hasDirectory key → gs.hasDirectory key

theorem Grows.refl (fs : Files) : Grows fs fs := ⟨fun _ => id, fun _ => id⟩

theorem grows_set (h : fs.hasDirectory key → e = .directory) : Grows fs (fs.set key e) := by
  by_cases hkey : key = []
  · subst hkey
    have hsame (k : List Text) : entry? (fs.set [] e) k = fs.entry? k := by
      by_cases hk : k = []
      · subst hk
        rfl
      · exact fs.entry?_set_of_ne hk e
    exact ⟨fun k hk => (hsame k).symm ▸ hk, fun k hk => by rwa [hasDirectory, hsame]⟩
  · refine ⟨fun k hk => ?_, fun k hk => ?_⟩
    · by_cases hsame : k = key
      · rw [hsame, fs.entry?_set_self hkey]
        rfl
      · rwa [fs.entry?_set_of_ne hsame]
    · rw [hasDirectory_iff]
      by_cases hsame : k = key
      · subst hsame
        rw [fs.entry?_set_self hkey, h hk]
      · rw [fs.entry?_set_of_ne hsame, hasDirectory_iff.1 hk]

/-! Following a path. -/

def turn (key : List Text) (p : Text) : List Text :=
  if Path.idle p then key else if p = ['.', '.'] then key.dropLast else key ++ [p]

/-- Whether a piece of a path leads somewhere from a place. -/
def Passable (fs : Files) (key : List Text) (p : Text) : Prop :=
  Path.idle p ∨ p = ['.', '.'] ∨ nameFits p ∧ (fs.entry? (key ++ [p])).isSome

theorem follow_cons_eq_ok {p : Text} {ps : List Text} : fs.follow key (p :: ps) = .ok k ↔
    fs.hasDirectory key ∧ fs.Passable key p ∧ fs.follow (turn key p) ps = .ok k := by
  rw [follow, turn, Passable]
  cases fs.hasDirectory key with
  | false => simp
  | true =>
    cases hidle : Path.idle p with
    | true => simp
    | false =>
      by_cases hup : p = ['.', '.']
      · simp [hup]
      · cases hfits : nameFits p with
        | false => simp [hup]
        | true => cases hentry : fs.entry? (key ++ [p]) <;> simp [hup]

theorem follow_append_eq_ok {ps qs : List Text} : fs.follow key (ps ++ qs) = .ok k ↔
    ∃ m, fs.follow key ps = .ok m ∧ fs.follow m qs = .ok k := by
  induction ps generalizing key with
  | nil => simp [follow]
  | cons p ps ih =>
    rw [List.cons_append, follow_cons_eq_ok, ih]
    simp only [follow_cons_eq_ok, and_assoc, exists_and_left]

theorem Grows.follow (h : Grows fs gs) {ps : List Text} (hf : fs.follow key ps = .ok k) :
    gs.follow key ps = .ok k := by
  induction ps generalizing key with
  | nil => exact hf
  | cons p ps ih =>
    obtain ⟨hkey, hp, hrest⟩ := follow_cons_eq_ok.1 hf
    exact follow_cons_eq_ok.2 ⟨h.directory key hkey,
      hp.imp_right (Or.imp_right (And.imp_right (h.entry (key ++ [p])))), ih hrest⟩

theorem follow_names {n : Text} (ps : List Text) : fs.follow key (ps ++ [n]) = .ok k ↔
    fs.follow key (ps.filter (!Path.idle ·) ++ [n]) = .ok k := by
  induction ps generalizing key with
  | nil => rfl
  | cons p ps ih =>
    cases hp : Path.idle p with
    | false =>
      rw [List.filter_cons_of_pos (by simp [hp]), List.cons_append, List.cons_append,
        follow_cons_eq_ok, follow_cons_eq_ok, ih]
    | true =>
      rw [List.filter_cons_of_neg (by simp [hp]), List.cons_append, follow_cons_eq_ok, ih, turn,
        if_pos hp]
      refine ⟨fun h => h.2.2, fun h => ⟨?_, .inl hp, h⟩⟩
      -- What is left of the path is not empty, and starts in the same directory.
      cases hrest : ps.filter (!Path.idle ·) ++ [n] with
      | nil => simp at hrest
      | cons q qs =>
        rw [hrest] at h
        exact (follow_cons_eq_ok.1 h).1

/-- Something is there, in directories all the way, under names that a file can have. -/
structure Reached (fs : Files) (key : List Text) : Prop where
  entry : (fs.entry? key).isSome
  within : ∀ front n, front ++ [n] <+: key → fs.hasDirectory front ∧ nameFits n

theorem reached_nil (fs : Files) : fs.Reached [] := ⟨rfl, fun front n h => by simp at h⟩

theorem Reached.push {n : Text} (h : fs.Reached key) (hkey : fs.hasDirectory key)
    (hn : nameFits n) (he : (fs.entry? (key ++ [n])).isSome) : fs.Reached (key ++ [n]) := by
  refine ⟨he, fun front m hm => ?_⟩
  rcases List.prefix_concat_iff.1 hm with hm | hm
  · obtain ⟨rfl, hmn⟩ := List.append_inj' hm rfl
    cases hmn
    exact ⟨hkey, hn⟩
  · exact h.within front m hm

theorem Reached.dropLast (h : fs.Reached key) : fs.Reached key.dropLast := by
  obtain rfl | ⟨front, n, rfl⟩ := List.eq_nil_or_concat key
  · exact h
  · rw [List.concat_eq_append] at h ⊢
    rw [List.dropLast_concat]
    obtain ⟨hfront, -⟩ := h.within front n List.prefix_rfl
    exact ⟨by rw [hasDirectory_iff.1 hfront]; rfl,
      fun back m hm => h.within back m (hm.trans (List.prefix_append front [n]))⟩

/-- A path leads to what is reached, from a place that is reached. -/
theorem Reached.follow (h : fs.Reached key) {ps : List Text} (hf : fs.follow key ps = .ok k) :
    fs.Reached k := by
  induction ps generalizing key with
  | nil => exact Except.ok.inj hf ▸ h
  | cons p ps ih =>
    obtain ⟨hkey, hp, hrest⟩ := follow_cons_eq_ok.1 hf
    refine ih ?_ hrest
    unfold turn
    split
    · exact h
    · next hidle =>
      split
      · exact h.dropLast
      · next hup =>
        obtain ⟨hfits, hsome⟩ := (hp.resolve_left hidle).resolve_left hup
        exact h.push hkey hfits hsome

theorem follow_eq_ok_iff {ns : List Text} (hidle : ∀ n ∈ ns, Path.idle n = false)
    (hup : ∀ n ∈ ns, n ≠ ['.', '.']) (hkey : fs.Reached key) :
    fs.follow key ns = .ok k ↔ k = key ++ ns ∧ fs.Reached (key ++ ns) := by
  induction ns generalizing key with
  | nil =>
    rw [List.append_nil]
    exact ⟨fun h => ⟨(Except.ok.inj h).symm, hkey⟩, fun h => congrArg Except.ok h.1.symm⟩
  | cons n ns ih =>
    obtain ⟨hn, hidle⟩ := List.forall_mem_cons.1 hidle
    obtain ⟨hnup, hup⟩ := List.forall_mem_cons.1 hup
    have hturn : turn key n = key ++ [n] := by simp [turn, hn, hnup]
    have hsplit : key ++ n :: ns = key ++ [n] ++ ns := by simp
    rw [follow_cons_eq_ok, hturn, hsplit]
    constructor
    · rintro ⟨hdir, hp, hrest⟩
      obtain ⟨hfits, hsome⟩ := (hp.resolve_left (by simp [hn])).resolve_left hnup
      exact (ih hidle hup (hkey.push hdir hfits hsome)).1 hrest
    · rintro ⟨hk, hreached⟩
      obtain ⟨hdir, hfits⟩ := hreached.within key n (List.prefix_append _ _)
      have hnext : (fs.entry? (key ++ [n])).isSome := by
        cases ns with
        | nil => exact List.append_nil (key ++ [n]) ▸ hreached.entry
        | cons m ns =>
          have hm : key ++ [n] ++ [m] <+: key ++ [n] ++ m :: ns :=
            (List.prefix_append_right_inj _).2 ⟨ns, rfl⟩
          rw [hasDirectory_iff.1 (hreached.within _ m hm).1]
          rfl
      exact ⟨hdir, .inr (.inr ⟨hfits, hnext⟩),
        (ih hidle hup (hkey.push hdir hfits hnext)).2 ⟨hk, hreached⟩⟩

theorem locate_eq_ok {path : Text} : fs.locate path = .ok k ↔
    checkPath path = .ok () ∧ (Path.shape path).lead = .root ∧
      fs.follow [] (Path.shape path).pieces = .ok k := by
  rw [locate]
  cases checkPath path with
  | error e => simp [bind, Except.bind]
  | ok u =>
    by_cases hlead : (Path.shape path).lead = .root <;> simp [bind, Except.bind, hlead]

theorem Grows.locate (h : Grows fs gs) {path : Text} (hl : fs.locate path = .ok k) :
    gs.locate path = .ok k := by
  rw [locate_eq_ok] at hl ⊢
  exact hl.imp_right (And.imp_right h.follow)

theorem at?_eq_some {path : Text} : fs.at? path = some e ↔
    ∃ key, fs.locate path = .ok key ∧ fs.entry? key = some e := by
  rw [at?]
  cases fs.locate path <;> simp

theorem isFile_iff {path : Text} : fs.isFile path ↔
    ∃ key c, fs.locate path = .ok key ∧ fs.entry? key = some (.file c) := by
  have hat : fs.isFile path ↔ ∃ c, fs.at? path = some (.file c) := by
    rw [isFile]
    split
    · next c hc => simp [hc]
    · next hne => simpa using fun c hc => hne c hc
  rw [hat]
  simp only [at?_eq_some]
  exact exists_comm

theorem isDirectory_iff {path : Text} : fs.isDirectory path ↔
    ∃ key, fs.locate path = .ok key ∧ fs.hasDirectory key := by
  rw [isDirectory, beq_iff_eq, at?_eq_some]
  simp only [hasDirectory_iff]

theorem Grows.isDirectory (h : Grows fs gs) {path : Text} (hd : fs.isDirectory path) :
    gs.isDirectory path := by
  obtain ⟨key, hl, hkey⟩ := isDirectory_iff.1 hd
  exact isDirectory_iff.2 ⟨key, h.locate hl, h.directory key hkey⟩

theorem read_congr {path : Text} {key : List Text} (hf : fs.locate path = .ok key)
    (hg : gs.locate path = .ok key) (he : gs.entry? key = fs.entry? key) :
    gs.read path = fs.read path := by
  rw [read, read, hf, hg]
  simp only [bind, Except.bind, he]

/-! A tree with one more file. -/

section NewFile

variable {c : Content} (hnew : fs.entry? key = none)
include hnew

theorem grows_newFile : Grows fs (fs.set key (.file c)) :=
  grows_set fun hd => by rw [hasDirectory_iff, hnew] at hd; cases hd

theorem not_hasDirectory_newFile : (fs.set key (.file c)).hasDirectory k → fs.hasDirectory k := by
  have hkey : key ≠ [] := ne_nil_of_entry? (by rw [hnew]; nofun)
  intro hd
  rw [hasDirectory_iff] at hd ⊢
  by_cases hk : k = key
  · rw [hk, fs.entry?_set_self hkey] at hd
    cases hd
  · rwa [fs.entry?_set_of_ne hk] at hd

/-- The new file is the only place that a path can lead to which led nowhere. -/
theorem follow_newFile {start : List Text} {ps : List Text}
    (h : (fs.set key (.file c)).follow start ps = .ok k) :
    k = key ∨ fs.follow start ps = .ok k := by
  have hkey : key ≠ [] := ne_nil_of_entry? (by rw [hnew]; nofun)
  have hstop : ¬(fs.set key (.file c)).hasDirectory key := by
    rw [hasDirectory_iff, fs.entry?_set_self hkey]
    nofun
  induction ps generalizing start with
  | nil => exact .inr h
  | cons p ps ih =>
    obtain ⟨hstart, hp, hrest⟩ := follow_cons_eq_ok.1 h
    by_cases hpass : fs.Passable start p
    · exact (ih hrest).imp_right fun hf =>
        follow_cons_eq_ok.2 ⟨not_hasDirectory_newFile hnew hstart, hpass, hf⟩
    · rw [Passable, not_or, not_or] at hpass
      obtain ⟨hidle, hup, hnone⟩ := hpass
      have hthere : start ++ [p] = key := by
        by_contra hne
        obtain ⟨hfits, hsome⟩ := (hp.resolve_left hidle).resolve_left hup
        rw [fs.entry?_set_of_ne hne] at hsome
        exact hnone ⟨hfits, hsome⟩
      rw [turn, if_neg hidle, if_neg hup, hthere] at hrest
      cases ps with
      | nil => exact .inl (Except.ok.inj hrest).symm
      | cons q qs => exact absurd (follow_cons_eq_ok.1 hrest).1 hstop

theorem locate_newFile {path : Text} (h : (fs.set key (.file c)).locate path = .ok k) :
    k = key ∨ fs.locate path = .ok k := by
  obtain ⟨hcheck, hlead, hfollow⟩ := locate_eq_ok.1 h
  exact (follow_newFile hnew hfollow).imp_right fun hf => locate_eq_ok.2 ⟨hcheck, hlead, hf⟩

end NewFile

end Files

end Jukebox
