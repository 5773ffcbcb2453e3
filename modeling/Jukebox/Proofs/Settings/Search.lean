import Jukebox.Proofs.Files.Tree
import Jukebox.Proofs.Path.Parent
import Jukebox.Settings.Discovery

set_option autoImplicit false

namespace Jukebox

theorem isFileName_settingsName : Path.IsFileName settingsName :=
  ⟨by decide, by decide, by decide⟩

theorem components_settingsIn (d : Text) :
    Path.components (settingsIn d) = Path.components d ++ [.name settingsName] :=
  Path.components_join d isFileName_settingsName

namespace Files

variable {toml : Toml.Codec} {fs : Files}

theorem isRootSettings_iff {path : Text} : fs.isRootSettings toml path ↔
    ∃ t raw, fs.read path = .ok t ∧ RawSettings.parse? toml t = some raw ∧
      raw.root = some true := by
  rw [isRootSettings]
  cases fs.read path with
  | error e => simp
  | ok t => simp [Option.any_eq_true]

def settingsFiles (fs : Files) (ds : List Text) : List Text :=
  (ds.map settingsIn).filter fs.isFile

theorem mem_settingsFiles {ds : List Text} {path : Text} :
    path ∈ fs.settingsFiles ds ↔ fs.isFile path ∧ ∃ d ∈ ds, path = settingsIn d := by
  rw [settingsFiles, List.mem_filter, List.mem_map, and_comm]
  simp only [eq_comm]

theorem settingsFiles_cons (d : Text) (ds : List Text) : fs.settingsFiles (d :: ds) =
    if fs.isFile (settingsIn d) then settingsIn d :: fs.settingsFiles ds
    else fs.settingsFiles ds := by
  rw [settingsFiles, List.map_cons, List.filter_cons, settingsFiles]

/-- The walk is cut after the first root. -/
theorem governing_eq (ds : List Text) : fs.governing toml ds =
    let found := fs.settingsFiles ds
    (found.take (found.findIdx (fs.isRootSettings toml) + 1),
      found.any (fs.isRootSettings toml)) := by
  induction ds with
  | nil => rfl
  | cons d ds ih =>
    rw [governing, settingsFiles_cons]
    cases fs.isFile (settingsIn d) with
    | false => exact ih
    | true =>
      cases hroot : fs.isRootSettings toml (settingsIn d) with
      | true => simp [hroot, List.findIdx_cons]
      | false => simp [hroot, List.findIdx_cons, ih]

theorem governing_append {front : List Text}
    (h : ∀ path ∈ fs.settingsFiles front, fs.isRootSettings toml path = false) (ds : List Text) :
    fs.governing toml (front ++ ds) =
      (fs.settingsFiles front ++ (fs.governing toml ds).1, (fs.governing toml ds).2) := by
  induction front with
  | nil => rfl
  | cons d front ih =>
    rw [settingsFiles_cons] at h ⊢
    rw [List.cons_append, governing]
    cases hfile : fs.isFile (settingsIn d) with
    | false =>
      rw [hfile] at h
      exact ih h
    | true =>
      simp only [hfile, if_true, List.forall_mem_cons] at h
      simp [h.1, ih h.2]

theorem governing_root {front back : List Text} {d : Text}
    (h : ∀ path ∈ fs.settingsFiles front, fs.isRootSettings toml path = false)
    (hfile : fs.isFile (settingsIn d)) (hroot : fs.isRootSettings toml (settingsIn d)) :
    fs.governing toml (front ++ d :: back) = (fs.settingsFiles front ++ [settingsIn d], true) := by
  rw [governing_append h, governing, hfile, hroot]
  rfl

theorem mem_governing_of_front {front back : List Text} {d : Text}
    (h : ∀ path ∈ fs.settingsFiles front, fs.isRootSettings toml path = false)
    (hfile : fs.isFile (settingsIn d)) :
    settingsIn d ∈ (fs.governing toml (front ++ d :: back)).1 := by
  rw [governing_append h, governing, hfile]
  refine List.mem_append_right _ ?_
  cases fs.isRootSettings toml (settingsIn d) <;> exact List.mem_cons_self

theorem exists_first_root {ds : List Text} {d : Text} (hd : d ∈ ds)
    (hfile : fs.isFile (settingsIn d)) (hroot : fs.isRootSettings toml (settingsIn d)) :
    ∃ front r back, ds = front ++ r :: back ∧
      (∀ path ∈ fs.settingsFiles front, fs.isRootSettings toml path = false) ∧
      fs.isFile (settingsIn r) ∧ fs.isRootSettings toml (settingsIn r) := by
  let ends (e : Text) : Bool := fs.isFile (settingsIn e) && fs.isRootSettings toml (settingsIn e)
  have hends : ends d := Bool.and_eq_true_iff.2 ⟨hfile, hroot⟩
  obtain ⟨r, hr⟩ := Option.isSome_iff_exists.1 (List.find?_isSome.2 ⟨d, hd, hends⟩)
  obtain ⟨hrends, front, back, hsplit, hfront⟩ := List.find?_eq_some_iff_append.1 hr
  obtain ⟨hrfile, hrroot⟩ := Bool.and_eq_true_iff.1 hrends
  refine ⟨front, r, back, hsplit, fun path hpath => ?_, hrfile, hrroot⟩
  obtain ⟨hpathfile, e, he, rfl⟩ := mem_settingsFiles.1 hpath
  have hnot := hfront e he
  simpa [ends, hpathfile] using hnot

theorem mem_governing {ds : List Text} {path : Text} (h : path ∈ (fs.governing toml ds).1) :
    fs.isFile path ∧ ∃ d, path = settingsIn d := by
  rw [governing_eq] at h
  obtain ⟨hfile, d, -, hd⟩ := mem_settingsFiles.1 (List.mem_of_mem_take h)
  exact ⟨hfile, d, hd⟩

theorem discover_eq (fs : Files) (home cwd : Text) : fs.discover toml home cwd =
    let g := fs.governing toml (cwd :: Path.parents cwd)
    if !g.2 && fs.isFile (settingsIn home) && !g.1.any (Path.same (settingsIn home)) then
      g.1 ++ [settingsIn home] else g.1 := rfl

theorem isFile_of_mem_discover {home cwd path : Text} (h : path ∈ fs.discover toml home cwd) :
    fs.isFile path := by
  rw [discover_eq] at h
  dsimp only at h
  split at h
  · next hglobal =>
    rcases List.mem_append.1 h with h | h
    · exact (mem_governing h).1
    · rw [List.mem_singleton.1 h]
      simp only [Bool.and_eq_true] at hglobal
      exact hglobal.1.2
  · exact (mem_governing h).1

/-- The list is the walk up to a root, and the global file behind it where it is new. -/
theorem discover_eq_walk (fs : Files) (home cwd : Text) :
    let found := fs.settingsFiles (cwd :: Path.parents cwd)
    let walk := found.take (found.findIdx (fs.isRootSettings toml) + 1)
    fs.discover toml home cwd = walk ++
      if (∀ p ∈ found, fs.isRootSettings toml p = false) ∧ fs.isFile (settingsIn home) ∧
        ∀ p ∈ walk, Path.components p ≠ Path.components (settingsIn home) then [settingsIn home]
      else [] := by
  intro found walk
  rw [discover_eq, governing_eq]
  dsimp only
  have hcondition : (!found.any (fs.isRootSettings toml) && fs.isFile (settingsIn home) &&
      !walk.any (Path.same (settingsIn home))) ↔
      (∀ p ∈ found, fs.isRootSettings toml p = false) ∧ fs.isFile (settingsIn home) ∧
        ∀ p ∈ walk, Path.components p ≠ Path.components (settingsIn home) := by
    have hnew (p : Text) : Path.same (settingsIn home) p = false ↔
        Path.components p ≠ Path.components (settingsIn home) := by
      rw [Path.same, beq_eq_false_iff_ne]
      exact ne_comm
    simp only [Bool.and_eq_true, Bool.not_eq_true', List.any_eq_false, Bool.not_eq_true, hnew,
      and_assoc]
  by_cases h : (∀ p ∈ found, fs.isRootSettings toml p = false) ∧ fs.isFile (settingsIn home) ∧
      ∀ p ∈ walk, Path.components p ≠ Path.components (settingsIn home)
  · rw [if_pos h, if_pos (hcondition.2 h)]
  · rw [if_neg h, if_neg (mt hcondition.1 h), List.append_nil]

theorem settingsFiles_pairwise (fs : Files) (cwd : Text) :
    (fs.settingsFiles (cwd :: Path.parents cwd)).Pairwise fun p q =>
      Path.components p ≠ Path.components q := by
  refine List.Pairwise.filter _ (List.pairwise_map.2 ((Path.pairwise_components cwd).imp ?_))
  intro d e hne hsame
  rw [components_settingsIn, components_settingsIn] at hsame
  exact hne (List.append_cancel_right hsame)

theorem discover_pairwise (fs : Files) (home cwd : Text) :
    (fs.discover toml home cwd).Pairwise fun p q => Path.components p ≠ Path.components q := by
  rw [discover_eq_walk]
  refine List.pairwise_append.2 ⟨(fs.settingsFiles_pairwise cwd).take, ?_, ?_⟩
  · split
    · exact List.pairwise_singleton _ _
    · exact List.Pairwise.nil
  · intro p hp q hq
    split at hq
    · next hnew =>
      obtain rfl := List.mem_singleton.1 hq
      exact hnew.2.2 p hp
    · cases hq

/-- A root in a list that is cut after the first root is its last entry. -/
theorem back_eq_nil_of_root {α : Type} {p : α → Bool} {as front back : List α} {a : α}
    (h : as.take (as.findIdx p + 1) = front ++ a :: back) (ha : p a) : back = [] := by
  induction as generalizing front with
  | nil => simp at h
  | cons b as ih =>
    rw [List.findIdx_cons] at h
    cases hb : p b with
    | true =>
      rw [hb, cond_true, List.take_succ_cons, List.take_zero] at h
      obtain ⟨-, hrest⟩ | ⟨-, hrest⟩ := List.singleton_eq_append_iff.1 h
      · exact (List.cons.inj hrest).2
      · cases hrest
    | false =>
      rw [hb, cond_false, List.take_succ_cons] at h
      cases front with
      | nil =>
        obtain ⟨rfl, -⟩ := List.cons.inj h
        rw [hb] at ha
        cases ha
      | cons c front => exact ih (List.cons.inj h).2

theorem back_eq_nil_of_isRootSettings {home cwd path : Text} {front back : List Text}
    (h : fs.discover toml home cwd = front ++ path :: back) (hroot : fs.isRootSettings toml path) :
    back = [] := by
  rw [discover_eq_walk] at h
  split at h
  · next hnone =>
    obtain rfl | ⟨back, b, rfl⟩ := List.eq_nil_or_concat back
    · rfl
    · rw [List.concat_eq_append, ← List.cons_append, ← List.append_assoc] at h
      have hwalk := (List.append_inj' h rfl).1
      have hpath := List.mem_of_mem_take (hwalk ▸ List.mem_append_right front List.mem_cons_self)
      rw [hnone.1 path hpath] at hroot
      cases hroot
  · rw [List.append_nil] at h
    exact back_eq_nil_of_root h hroot

theorem mem_discover_of_front {home cwd d : Text} {front back : List Text}
    (hsplit : cwd :: Path.parents cwd = front ++ d :: back)
    (h : ∀ path ∈ fs.settingsFiles front, fs.isRootSettings toml path = false)
    (hfile : fs.isFile (settingsIn d)) : settingsIn d ∈ fs.discover toml home cwd := by
  have hmem : settingsIn d ∈ (fs.governing toml (front ++ d :: back)).1 :=
    mem_governing_of_front h hfile
  rw [← hsplit] at hmem
  rw [discover_eq]
  dsimp only
  split
  · exact List.mem_append_left _ hmem
  · exact hmem

theorem discover_of_root {home cwd d : Text} {front back : List Text}
    (hsplit : cwd :: Path.parents cwd = front ++ d :: back)
    (h : ∀ path ∈ fs.settingsFiles front, fs.isRootSettings toml path = false)
    (hfile : fs.isFile (settingsIn d)) (hroot : fs.isRootSettings toml (settingsIn d)) :
    fs.discover toml home cwd = fs.settingsFiles front ++ [settingsIn d] := by
  rw [discover_eq, hsplit, governing_root h hfile hroot]
  rfl

end Files

end Jukebox
