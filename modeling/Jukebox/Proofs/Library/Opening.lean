import Jukebox.Library.Disk
import Jukebox.Proofs.Files.Making

set_option autoImplicit false

namespace Jukebox

namespace Files

variable {fs : Files} {path : Text} {d : Database}

theorem database?_eq_some : fs.database? path = some d ↔
    fs.entry? (databaseKey path) = some (.file (.database d)) := by
  rw [database?]
  split
  · next d' h => simp [h]
  · next hne => simpa using hne d

def Housed (fs : Files) (path : Text) : Prop :=
  ∀ parent, Path.parent? path = some parent → parent = [] ∨ fs.isDirectory parent

/-- The place of a database, where its directory is there and its names are allowed. -/
structure Ready (fs : Files) (path : Text) : Prop where
  housed : fs.Housed path
  plain : path.contains '\x00' = false
  fits : databaseKeyFits (databaseKey path)
  directory : fs.hasDirectory (databaseKey path).dropLast

theorem openDatabase_of_housed (h : fs.Housed path) :
    fs.openDatabase path = openDatabase.prepare path fs := by
  rw [openDatabase]
  cases hparent : Path.parent? path with
  | none => rfl
  | some parent =>
    dsimp only
    rw [ensureDirectory_of_isDirectory (h parent hparent)]

theorem setDatabase_spec (h : fs.Ready path) (hfree : ¬fs.hasDirectory (databaseKey path))
    (d : Database) : (fs.setDatabase path d).Ready path ∧
      (fs.setDatabase path d).database? path = some d := by
  have hne : databaseKey path ≠ [] := ne_nil_of_entry? fun hdir => hfree (hasDirectory_iff.2 hdir)
  have hgrows : Grows fs (fs.setDatabase path d) := grows_set fun hdir => absurd hdir hfree
  exact ⟨⟨fun parent hparent => (h.housed parent hparent).imp_right hgrows.isDirectory, h.plain,
    h.fits, hgrows.directory _ h.directory⟩, database?_eq_some.2 (fs.entry?_set_self hne _)⟩

theorem openable_of_database? (h : fs.Ready path) (hd : fs.database? path = some d) :
    fs.openable path = .ok d := by
  rw [openable]
  simp only [h.plain, h.fits, h.directory, database?_eq_some.1 hd]
  rfl

theorem openable_eq_ok (hhoused : fs.Housed path) (hnone : fs.database? path = none)
    (h : fs.openable path = .ok d) :
    d = .blank ∧ fs.Ready path ∧ ¬fs.hasDirectory (databaseKey path) := by
  rw [openable] at h
  split at h
  · cases h
  · next hplace =>
    obtain ⟨hplain, hfits, hdir⟩ : path.contains '\x00' = false ∧
        databaseKeyFits (databaseKey path) ∧ fs.hasDirectory (databaseKey path).dropLast := by
      simpa [and_assoc] using hplace
    have hblank : d = .blank ∧ fs.entry? (databaseKey path) ≠ some .directory := by
      cases he : fs.entry? (databaseKey path) with
      | none =>
        rw [he] at h
        exact ⟨(Except.ok.inj h).symm, nofun⟩
      | some e =>
        rw [he] at h
        match e with
        | .directory => cases h
        | .file (.text []) => exact ⟨(Except.ok.inj h).symm, nofun⟩
        | .file (.text (c :: t)) => cases h
        | .file (.bytes raw) => cases h
        | .file (.database d) => rw [database?_eq_some.2 he] at hnone; cases hnone
    exact ⟨hblank.1, ⟨hhoused, hplain, hfits, hdir⟩, fun h => hblank.2 (hasDirectory_iff.1 h)⟩

theorem openable_ne_version (v : Int) : fs.openable path ≠ .error (.version v) := by
  rw [openable]
  split
  · nofun
  · split <;> nofun

theorem database?_of_addsDirectories {gs : Files} (h : AddsDirectories fs gs)
    (hnone : fs.database? path = none) : gs.database? path = none := by
  rcases h (databaseKey path) with hsame | ⟨-, hdir⟩
  · rwa [database?, hsame]
  · rw [database?, hdir]

/-- Opening a database first makes the directory that it is to be in. -/
theorem openDatabase_cases (hnone : fs.database? path = none) :
    (∃ cause, fs.openDatabase path = (.error (.directory cause), fs)) ∨
      ∃ made : Files, made.database? path = none ∧ made.Housed path ∧
        fs.openDatabase path = openDatabase.prepare path made := by
  rw [openDatabase]
  cases hparent : Path.parent? path with
  | none =>
    have hhoused : fs.Housed path := fun parent h => by rw [hparent] at h; cases h
    exact .inr ⟨fs, hnone, hhoused, rfl⟩
  | some parent =>
    dsimp only
    cases hensure : fs.ensureDirectory parent with
    | error cause => exact .inl ⟨cause, rfl⟩
    | ok made =>
      obtain ⟨hadds, hthere⟩ := makeDirectories_eq_ok hensure
      refine .inr ⟨made, database?_of_addsDirectories hadds hnone, ?_, rfl⟩
      intro p hp
      rw [hparent] at hp
      exact hthere p hp

theorem openDatabase_new (hnone : fs.database? path = none)
    (hopens : (fs.openDatabase path).1 = .ok ()) :
    (fs.openDatabase path).2.Ready path ∧ (fs.openDatabase path).2.database? path =
      some ⟨some Database.currentVersion, .empty⟩ := by
  rcases openDatabase_cases hnone with ⟨cause, hopen⟩ | ⟨made, hmade, hhoused, hopen⟩
  · rw [hopen] at hopens
    cases hopens
  · rw [hopen, openDatabase.prepare] at hopens ⊢
    cases hopenable : made.openable path with
    | error e => rw [hopenable] at hopens; cases hopens
    | ok d =>
      obtain ⟨rfl, hready, hfree⟩ := openable_eq_ok hhoused hmade hopenable
      exact setDatabase_spec hready hfree _

/-- Where no database can be made, none can be made the next time. -/
theorem openDatabase_fails {e : OpenError} (hnone : fs.database? path = none)
    (hfails : (fs.openDatabase path).1 = .error e) :
    (∀ v, e ≠ .version v) ∧ (fs.openDatabase path).2.database? path = none ∧
      ((fs.openDatabase path).2.openDatabase path).1 = .error e := by
  rcases openDatabase_cases hnone with ⟨cause, hopen⟩ | ⟨made, hmade, hhoused, hopen⟩
  · rw [hopen] at hfails ⊢
    obtain rfl := Except.error.inj hfails
    exact ⟨nofun, hnone, by rw [hopen]⟩
  · have hagain : made.openDatabase path = openDatabase.prepare path made :=
      openDatabase_of_housed hhoused
    rw [hopen] at hfails ⊢
    have hprepare : openDatabase.prepare path made = (.error e, made) ∧ ∀ v, e ≠ .version v := by
      rw [openDatabase.prepare] at hfails ⊢
      cases hopenable : made.openable path with
      | ok d =>
        obtain ⟨rfl, -⟩ := openable_eq_ok hhoused hmade hopenable
        rw [hopenable] at hfails
        cases hfails
      | error e' =>
        rw [hopenable] at hfails
        obtain rfl : e' = e := Except.error.inj hfails
        refine ⟨rfl, ?_⟩
        rintro v rfl
        exact openable_ne_version v hopenable
    rw [hprepare.1, hagain, hprepare.1]
    exact ⟨hprepare.2, hmade, rfl⟩

theorem openDatabase_again (h : fs.Ready path) (hd : fs.database? path = some d) :
    fs.openDatabase path = match d.prepare with
      | .ok d => (.ok (), fs.setDatabase path d)
      | .error found => (.error (.version found), fs) := by
  rw [openDatabase_of_housed h.housed, openDatabase.prepare]
  cases hprepare : d.prepare <;> simp only [openable_of_database? h hd, hprepare]

end Files

end Jukebox
