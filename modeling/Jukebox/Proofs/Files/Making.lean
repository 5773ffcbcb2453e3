import Mathlib.Data.List.TakeWhile
import Jukebox.Proofs.Files.Tree
import Jukebox.Proofs.Path.Pieces

set_option autoImplicit false

namespace Jukebox

namespace Path

def stem (p : Text) : List Text := ((shape p).pieces.reverse.dropWhile List.isEmpty).reverse

theorem pieces_eq_stem (p : Text) :
    ∃ blanks : List Text, (shape p).pieces = stem p ++ blanks ∧ ∀ b ∈ blanks, b = [] := by
  refine ⟨((shape p).pieces.reverse.takeWhile List.isEmpty).reverse, ?_, fun b hb => ?_⟩
  · rw [stem, ← List.reverse_append, List.takeWhile_append_dropWhile, List.reverse_reverse]
  · exact List.isEmpty_iff.1 (List.mem_takeWhile_imp (List.mem_reverse.1 hb))

theorem getLast?_of_blank {p : Text} {front : List Text} (hroot : (shape p).lead = .root)
    (h : (shape p).pieces = front ++ [[]]) : p.getLast? = some '/' := by
  have hends (front : List Text) : ∃ t, '/' :: ['/'].intercalate (front ++ [[]]) = t ++ ['/'] := by
    induction front with
    | nil => exact ⟨[], rfl⟩
    | cons f front ih =>
      obtain ⟨t, ht⟩ := ih
      refine ⟨'/' :: f ++ t, ?_⟩
      rw [List.cons_append, List.intercalate_cons_of_ne_nil (by simp), List.append_assoc,
        List.singleton_append, ht, List.cons_append, List.cons_append, List.append_assoc]
  obtain ⟨t, ht⟩ := hends front
  have hp : p = '/' :: ['/'].intercalate (front ++ [[]]) := by
    rw [← text_shape p, Shape.text, hroot, h]
    rfl
  rw [hp, ht, List.getLast?_concat]

theorem pieces_eq_stem_of_getLast? {p : Text} (hroot : (shape p).lead = .root)
    (h : p.getLast? ≠ some '/') : (shape p).pieces = stem p := by
  obtain ⟨blanks, hpieces, hblanks⟩ := pieces_eq_stem p
  rcases List.eq_nil_or_concat blanks with rfl | ⟨front, b, rfl⟩
  · rw [hpieces, List.append_nil]
  · rw [hblanks b (by simp), List.concat_eq_append, ← List.append_assoc] at hpieces
    exact absurd (getLast?_of_blank hroot hpieces) h

end Path

namespace Files

variable {fs gs : Files} {key : List Text} {path n : Text} {e : Entry}

theorem lastPiece_eq (hcheck : checkPath path = .ok ()) (hlead : (Path.shape path).lead = .root) :
    fs.lastPiece path = match (Path.stem path).getLast? with
      | none => .error .exists
      | some n => (fs.follow [] (Path.stem path).dropLast).bind fun key =>
        if !fs.hasDirectory key then .error .notADirectory
        else if Path.idle n || n = ['.', '.'] then .error .exists
        else if !nameFits n then .error .nameTooLong
        else .ok (key, n) := by
  rw [lastPiece, hcheck, Path.stem]
  simp only [bind, Except.bind, hlead]
  generalize (List.dropWhile List.isEmpty (Path.shape path).pieces.reverse).reverse = stem
  cases stem.getLast? with
  | none => rfl
  | some n =>
    cases fs.follow [] stem.dropLast with
    | error e => rfl
    | ok key =>
      dsimp only
      cases fs.hasDirectory key <;> cases Path.idle n || n = ['.', '.'] <;> cases nameFits n <;> rfl

theorem lastPiece_concat {front : List Text} (hcheck : checkPath path = .ok ())
    (hlead : (Path.shape path).lead = .root) (hstem : Path.stem path = front ++ [n])
    (hfollow : fs.follow [] front = .ok key) (hdir : fs.hasDirectory key) :
    fs.lastPiece path = if Path.idle n || n = ['.', '.'] then .error .exists
      else if !nameFits n then .error .nameTooLong else .ok (key, n) := by
  rw [lastPiece_eq hcheck hlead, hstem, List.getLast?_concat, List.dropLast_concat, hfollow]
  dsimp only [Except.bind]
  rw [hdir]
  rfl

theorem lastPiece_eq_ok (h : fs.lastPiece path = .ok (key, n)) :
    checkPath path = .ok () ∧ (Path.shape path).lead = .root ∧
      ∃ front, Path.stem path = front ++ [n] ∧ fs.follow [] front = .ok key ∧
        fs.hasDirectory key ∧ Path.idle n = false ∧ n ≠ ['.', '.'] ∧ nameFits n := by
  have hcheck : checkPath path = .ok () := by
    cases hc : checkPath path with
    | error e => rw [lastPiece, hc] at h; cases h
    | ok u => rfl
  have hlead : (Path.shape path).lead = .root := by
    cases hl : (Path.shape path).lead with
    | root => rfl
    | here | nothing =>
      rw [lastPiece, hcheck] at h
      simp only [bind, Except.bind, hl] at h
      cases h
  refine ⟨hcheck, hlead, ?_⟩
  rw [lastPiece_eq hcheck hlead] at h
  rcases List.eq_nil_or_concat (Path.stem path) with hstem | ⟨front, m, hstem⟩
  · rw [hstem] at h
    cases h
  · rw [hstem, List.concat_eq_append, List.getLast?_concat, List.dropLast_concat] at h
    cases hfollow : fs.follow [] front with
    | error e => rw [hfollow] at h; cases h
    | ok k =>
      rw [hfollow] at h
      dsimp only [Except.bind] at h
      split at h
      · cases h
      · next hdir =>
        split at h
        · cases h
        · next hname =>
          split at h
          · cases h
          · next hfits =>
            cases h
            refine ⟨front, by rw [hstem, List.concat_eq_append], hfollow, ?_⟩
            simp_all

/-- What a path without a separator at its end was to lead to is found under it. So is a directory,
even with separators behind. -/
theorem locate_of_lastPiece (h : fs.lastPiece path = .ok (key, n)) (hgrows : Grows fs gs)
    (he : gs.entry? (key ++ [n]) = some e)
    (hlast : e = .directory ∨ (Path.shape path).pieces = Path.stem path) :
    gs.locate path = .ok (key ++ [n]) := by
  obtain ⟨hcheck, hlead, front, hstem, hfollow, hdir, hidle, hup, hfits⟩ := lastPiece_eq_ok h
  refine locate_eq_ok.2 ⟨hcheck, hlead, ?_⟩
  have hname : gs.follow [] (Path.stem path) = .ok (key ++ [n]) := by
    rw [hstem, follow_append_eq_ok]
    refine ⟨key, hgrows.follow hfollow, follow_cons_eq_ok.2 ⟨hgrows.directory key hdir, ?_, ?_⟩⟩
    · exact .inr (.inr ⟨hfits, by rw [he]; rfl⟩)
    · rw [turn, if_neg (by simp [hidle]), if_neg hup]
      rfl
  rcases hlast with rfl | hpieces
  · obtain ⟨blanks, hpieces, hblanks⟩ := Path.pieces_eq_stem path
    rw [hpieces, follow_append_eq_ok]
    refine ⟨key ++ [n], hname, ?_⟩
    clear hpieces
    induction blanks with
    | nil => rfl
    | cons b blanks ih =>
      rw [hblanks b List.mem_cons_self, follow_cons_eq_ok]
      exact ⟨hasDirectory_iff.2 he, .inl rfl, ih fun b hb => hblanks b (List.mem_cons_of_mem _ hb)⟩
  · rwa [hpieces]

theorem write_eq_ok {c : Content} (h : fs.write path c = .ok gs) :
    ∃ key, key ≠ [] ∧ ¬fs.hasDirectory key ∧ gs = fs.set key (.file c) ∧
      gs.locate path = .ok key ∧ (fs.exists? path = false → fs.entry? key = none) := by
  rw [write] at h
  by_cases hslash : path.getLast? = some '/'
  · rw [if_pos hslash] at h
    cases h
  · rw [if_neg hslash] at h
    cases hlast : fs.lastPiece path with
    | error e =>
      rw [hlast] at h
      cases e <;> cases h
    | ok r =>
      obtain ⟨key, n⟩ := r
      rw [hlast] at h
      have hpieces : (Path.shape path).pieces = Path.stem path :=
        Path.pieces_eq_stem_of_getLast? (lastPiece_eq_ok hlast).2.1 hslash
      have hne : key ++ [n] ≠ [] := by simp
      cases hdir : fs.hasDirectory (key ++ [n]) with
      | true =>
        simp only [hdir] at h
        cases h
      | false =>
        simp only [hdir] at h
        cases h
        refine ⟨key ++ [n], hne, by simp [hdir], rfl, ?_, fun hnone => ?_⟩
        · exact locate_of_lastPiece hlast (grows_set (by simp [hdir])) (fs.entry?_set_self hne _)
            (.inr hpieces)
        · by_contra hsome
          obtain ⟨e, he⟩ := Option.ne_none_iff_exists'.1 hsome
          have hat := at?_eq_some.2 ⟨_, locate_of_lastPiece hlast (.refl fs) he (.inr hpieces), he⟩
          rw [exists?, hat] at hnone
          cases hnone

theorem makeDirectory_eq_ok (h : fs.makeDirectory path = .ok gs) :
    ∃ key, fs.entry? key = none ∧ gs = fs.set key .directory ∧ gs.isDirectory path := by
  rw [makeDirectory] at h
  cases hlast : fs.lastPiece path with
  | error e => rw [hlast] at h; cases h
  | ok r =>
    obtain ⟨key, n⟩ := r
    rw [hlast] at h
    simp only [bind, Except.bind] at h
    cases he : fs.entry? (key ++ [n]) with
    | some e => rw [he] at h; cases h
    | none =>
      rw [he] at h
      cases h
      have hne : key ++ [n] ≠ [] := by simp
      have hmade := fs.entry?_set_self hne .directory
      refine ⟨key ++ [n], he, rfl, isDirectory_iff.2 ⟨key ++ [n], ?_, hasDirectory_iff.2 hmade⟩⟩
      exact locate_of_lastPiece hlast (grows_set fun _ => rfl) hmade (.inl rfl)

theorem makeDirectory_of_isDirectory (h : fs.isDirectory path) :
    fs.makeDirectory path = .error .exists := by
  obtain ⟨k, hlocate, -⟩ := isDirectory_iff.1 h
  obtain ⟨hcheck, hlead, hfollow⟩ := locate_eq_ok.1 hlocate
  obtain ⟨blanks, hpieces, -⟩ := Path.pieces_eq_stem path
  rw [hpieces, follow_append_eq_ok] at hfollow
  obtain ⟨m, hfollow, -⟩ := hfollow
  rcases List.eq_nil_or_concat (Path.stem path) with hstem | ⟨front, n, hstem⟩
  · rw [makeDirectory, lastPiece_eq hcheck hlead, hstem]
    rfl
  · rw [List.concat_eq_append] at hstem
    rw [hstem, follow_append_eq_ok] at hfollow
    obtain ⟨key, hfollow, hlast⟩ := hfollow
    obtain ⟨hdir, hpass, -⟩ := follow_cons_eq_ok.1 hlast
    rw [makeDirectory, lastPiece_concat hcheck hlead hstem hfollow hdir]
    by_cases hname : Path.idle n || n = ['.', '.']
    · rw [if_pos hname]
      rfl
    · obtain ⟨hfits, hsome⟩ : nameFits n ∧ (fs.entry? (key ++ [n])).isSome := by
        rw [Bool.or_eq_true, decide_eq_true_eq, not_or] at hname
        exact (hpass.resolve_left hname.1).resolve_left hname.2
      obtain ⟨e, he⟩ := Option.isSome_iff_exists.1 hsome
      rw [if_neg hname, hfits]
      simp only [bind, Except.bind, Bool.not_true, Bool.false_eq_true, if_false, he]
      rfl

/-- The second tree has the entries of the first, and directories where that has nothing. -/
def AddsDirectories (fs gs : Files) : Prop :=
  ∀ key, gs.entry? key = fs.entry? key ∨ fs.entry? key = none ∧ gs.entry? key = some .directory

theorem AddsDirectories.refl (fs : Files) : AddsDirectories fs fs := fun _ => .inl rfl

theorem AddsDirectories.trans {hs : Files} (h : AddsDirectories fs gs)
    (h' : AddsDirectories gs hs) : AddsDirectories fs hs := by
  intro key
  rcases h' key with hsame | ⟨hnone, hdir⟩
  · rw [hsame]
    exact h key
  · rcases h key with hfirst | ⟨-, hfirst⟩
    · exact .inr ⟨hfirst ▸ hnone, hdir⟩
    · rw [hfirst] at hnone
      cases hnone

theorem addsDirectories_makeDirectory (h : fs.makeDirectory path = .ok gs) :
    AddsDirectories fs gs := by
  obtain ⟨key, hnone, rfl, -⟩ := makeDirectory_eq_ok h
  have hne : key ≠ [] := ne_nil_of_entry? (by rw [hnone]; nofun)
  intro k
  by_cases hk : k = key
  · subst hk
    exact .inr ⟨hnone, fs.entry?_set_self hne _⟩
  · exact .inl (fs.entry?_set_of_ne hk _)

theorem makeDirectories_eq_ok {ps : List Text} (h : fs.makeDirectories ps = .ok gs) :
    AddsDirectories fs gs ∧ ∀ p, ps.head? = some p → p = [] ∨ gs.isDirectory p := by
  have hmade {fs gs : Files} {p : Text} (h : fs.makeDirectory p = .ok gs) :
      AddsDirectories fs gs ∧ gs.isDirectory p :=
    ⟨addsDirectories_makeDirectory h, (makeDirectory_eq_ok h).choose_spec.2.2⟩
  induction ps generalizing gs with
  | nil => cases h
  | cons p ps ih =>
    simp only [List.head?_cons, Option.some.injEq, forall_eq']
    rw [makeDirectories] at h
    by_cases hp : p = []
    · subst hp
      cases h
      exact ⟨.refl fs, .inl rfl⟩
    · rw [if_neg (by simpa using hp)] at h
      cases hmake : fs.makeDirectory p with
      | ok made =>
        rw [hmake] at h
        cases h
        exact (hmade hmake).imp_right .inr
      | error e =>
        rw [hmake] at h
        have hthere {made : Files} {e : FileError}
            (h : (if made.isDirectory p then Except.ok made else .error e) = .ok gs) :
            gs = made ∧ gs.isDirectory p := by
          cases hdir : made.isDirectory p with
          | true => rw [hdir] at h; cases h; exact ⟨rfl, hdir⟩
          | false => rw [hdir] at h; cases h
        cases e with
        | notFound =>
          -- Made once more after the directories around it.
          cases haround : fs.makeDirectories ps with
          | error e => rw [haround] at h; cases h
          | ok made =>
            have hfirst := (ih haround).1
            rw [haround] at h
            dsimp only [bind, Except.bind] at h
            cases hagain : made.makeDirectory p with
            | ok last =>
              rw [hagain] at h
              cases h
              exact ⟨hfirst.trans (hmade hagain).1, .inr (hmade hagain).2⟩
            | error e =>
              rw [hagain] at h
              obtain ⟨rfl, hdir⟩ := hthere h
              exact ⟨hfirst, .inr hdir⟩
        | _ =>
          obtain ⟨rfl, hdir⟩ := hthere h
          exact ⟨.refl _, .inr hdir⟩

theorem ensureDirectory_of_isDirectory (h : path = [] ∨ fs.isDirectory path) :
    fs.ensureDirectory path = .ok fs := by
  rw [ensureDirectory, makeDirectories]
  rcases h with rfl | h
  · rfl
  · cases hempty : path.isEmpty with
    | true => rfl
    | false =>
      rw [makeDirectory_of_isDirectory h]
      simp [h]

end Files

end Jukebox
