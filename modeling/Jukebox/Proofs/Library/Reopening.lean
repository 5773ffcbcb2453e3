import Jukebox.Proofs.Library.History
import Jukebox.Proofs.Library.Opening

/-!
A library in a file that is opened again and again, and whose version is changed from outside. It
opens just if the version is one that it knows or there is none, and it is then the library that
received all tracks that were added while the file was open.
-/

set_option autoImplicit false

namespace Jukebox

inductive Question where
  | select (seed : Nat) (t : Text)
  | values (l : Lookup)
  | completions (t : Text)
  | count

inductive Reply where
  | paths (found : Except SelectError (List OsText))
  | values (found : Except StatementError (List Text))
  | count (n : Nat)

def Library.reply (lib : Library) : Question → Reply
  | .select seed t => .paths (lib.select seed t)
  | .values l => .values (lib.lookUp l)
  | .completions t => .values (lib.completions t)
  | .count => .count lib.count

namespace Disk

/-- What is done with a library in a file. The row of its version is changed from outside. -/
inductive Step where
  | add (t : Track)
  | ask (q : Question)
  | reopen
  | setVersion (version : Option Int)

def reply? (d : Disk) (q : Question) : Option Reply := d.library?.map (·.reply q)

def next (d : Disk) : Step → Disk
  | .add t => (d.add t).2
  | .ask _ => d
  | .reopen => d.reopen.2
  | .setVersion version => (d.setVersion version).getD d

def run (d : Disk) (steps : List Step) : Disk := steps.foldl next d

/-- The track that a step adds to the library, which has to be open. -/
def taken (d : Disk) : Step → List Track
  | .add t => if d.isOpen then [t] else []
  | .ask _ | .reopen | .setVersion _ => []

/-- The tracks that are added while the library is open. -/
def received : Disk → List Step → List Track
  | _, [] => []
  | d, s :: steps => d.taken s ++ received (d.next s) steps

def version? (d : Disk) : Option Int := (d.files.database? d.path).bind Database.version

def put (d : Disk) (database : Database) : Disk :=
  { d with files := d.files.setDatabase d.path database }

structure Fresh (d : Disk) : Prop where
  closed : d.isOpen = false
  missing : d.files.database? d.path = none
  opens : (d.files.openDatabase d.path).1 = .ok ()

/-- The file has the tables of the library that received the tracks. -/
structure Holds (d : Disk) (ts : List Track) : Prop where
  ready : d.files.Ready d.path
  database : d.files.database? d.path = some ⟨d.version?, (Library.after d.home ts).catalogue⟩

/-- A file that a library can be opened from, or is in already. -/
def Keeps (d : Disk) (ts : List Track) : Prop := d.Fresh ∧ ts = [] ∨ d.Holds ts

variable {d : Disk} {ts : List Track}

theorem library?_of_closed (h : d.isOpen = false) : d.library? = none := by rw [library?, h]; rfl

theorem add_of_closed (h : d.isOpen = false) (t : Track) : d.add t = (none, d) := by
  rw [add, library?_of_closed h]

theorem setVersion_of_missing (h : d.files.database? d.path = none) (version : Option Int) :
    d.setVersion version = none := by rw [setVersion, h]; rfl

theorem Holds.put (h : d.Holds ts) (version : Option Int) (us : List Track) :
    (d.put ⟨version, (Library.after d.home us).catalogue⟩).Holds us ∧
      (d.put ⟨version, (Library.after d.home us).catalogue⟩).version? = version := by
  have hfree : ¬d.files.hasDirectory (Files.databaseKey d.path) := by
    rw [Files.hasDirectory_iff, Files.database?_eq_some.1 h.database]
    nofun
  obtain ⟨hready, hdatabase⟩ := Files.setDatabase_spec h.ready hfree
    ⟨version, (Library.after d.home us).catalogue⟩
  have hversion : (d.put ⟨version, (Library.after d.home us).catalogue⟩).version? = version :=
    congrArg (Option.bind · Database.version) hdatabase
  exact ⟨⟨hready, by rw [hversion]; exact hdatabase⟩, hversion⟩

theorem Holds.withOpen (h : d.Holds ts) (isOpen : Bool) : Holds { d with isOpen } ts :=
  ⟨h.ready, h.database⟩

theorem Holds.library? (h : d.Holds ts) (hopen : d.isOpen) :
    d.library? = some (Library.after d.home ts) := by
  rw [Disk.library?, hopen, if_pos rfl, h.database, Option.map_some]
  exact congrArg some (congrArg (Library.mk · _) (Library.records d.home ts).home_eq.symm)

theorem Holds.add (h : d.Holds ts) (hopen : d.isOpen) (t : Track) :
    d.add t = (some ((Library.after d.home ts).add t).1,
      d.put ⟨d.version?, (Library.after d.home (ts ++ [t])).catalogue⟩) := by
  rw [Disk.add, h.library? hopen, h.database, Library.after_concat]
  rfl

theorem Holds.reopen_refused (h : d.Holds ts) {v : Int} (hv : d.version? = some v)
    (hne : v ≠ Database.currentVersion) :
    d.reopen = (.error (.version v), { d with isOpen := false }) := by
  have hprepare : Database.prepare ⟨d.version?, (Library.after d.home ts).catalogue⟩ =
      .error v := by
    simp only [Database.prepare, hv, if_neg hne]
  rw [reopen, Files.openDatabase_again h.ready h.database, hprepare]
  rfl

theorem Holds.reopen (h : d.Holds ts)
    (hv : d.version? = none ∨ d.version? = some Database.currentVersion) :
    d.reopen = (.ok (), { d.put ⟨some Database.currentVersion, (Library.after d.home ts).catalogue⟩
      with isOpen := true }) := by
  have hprepare : Database.prepare ⟨d.version?, (Library.after d.home ts).catalogue⟩ =
      .ok ⟨some Database.currentVersion, (Library.after d.home ts).catalogue⟩ := by
    rcases hv with hv | hv <;> rw [hv] <;> rfl
  rw [Disk.reopen, Files.openDatabase_again h.ready h.database, hprepare]
  rfl

theorem Fresh.reopen (h : d.Fresh) : d.reopen.1 = .ok () ∧ d.reopen.2.isOpen ∧
    d.reopen.2.version? = some Database.currentVersion ∧ d.reopen.2.Holds [] := by
  obtain ⟨hready, hdatabase⟩ := Files.openDatabase_new h.missing h.opens
  have hversion : d.reopen.2.version? = some Database.currentVersion :=
    congrArg (Option.bind · Database.version) hdatabase
  exact ⟨h.opens, congrArg Except.isOk h.opens, hversion, hready, by rw [hversion]; exact hdatabase⟩

theorem Holds.setVersion (h : d.Holds ts) (version : Option Int) :
    d.setVersion version = some (d.put ⟨version, (Library.after d.home ts).catalogue⟩) := by
  rw [Disk.setVersion, h.database]
  rfl

theorem Fresh.next (h : d.Fresh) (s : Step) : d.taken s = [] ∧ (d.next s).Keeps [] := by
  cases s with
  | add t =>
    refine ⟨by rw [taken, h.closed]; rfl, .inl ⟨?_, rfl⟩⟩
    rwa [Disk.next, add_of_closed h.closed]
  | ask q => exact ⟨rfl, .inl ⟨h, rfl⟩⟩
  | reopen => exact ⟨rfl, .inr h.reopen.2.2.2⟩
  | setVersion version =>
    refine ⟨rfl, .inl ⟨?_, rfl⟩⟩
    rwa [Disk.next, setVersion_of_missing h.missing]

theorem Holds.next (h : d.Holds ts) (s : Step) : (d.next s).Holds (ts ++ d.taken s) := by
  cases s with
  | add t =>
    rw [Disk.next, taken]
    cases hopen : d.isOpen with
    | true =>
      rw [h.add hopen]
      exact (h.put _ _).1
    | false =>
      rw [add_of_closed hopen]
      exact (List.append_nil ts).symm ▸ h
  | ask q => exact (List.append_nil ts).symm ▸ h
  | reopen =>
    rw [Disk.next, taken, List.append_nil]
    by_cases hv : d.version? = none ∨ d.version? = some Database.currentVersion
    · rw [h.reopen hv]
      exact (h.put _ _).1.withOpen true
    · rw [not_or] at hv
      obtain ⟨v, hsome⟩ := Option.ne_none_iff_exists'.1 hv.1
      rw [h.reopen_refused hsome fun he => hv.2 (he ▸ hsome)]
      exact h.withOpen false
  | setVersion version =>
    rw [Disk.next, taken, List.append_nil, h.setVersion]
    exact (h.put _ _).1

theorem Keeps.next (h : d.Keeps ts) (s : Step) : (d.next s).Keeps (ts ++ d.taken s) := by
  rcases h with ⟨hfresh, rfl⟩ | hholds
  · obtain ⟨htaken, hkeeps⟩ := hfresh.next s
    rwa [htaken]
  · exact .inr (hholds.next s)

theorem Keeps.run (h : d.Keeps ts) (steps : List Step) :
    (d.run steps).Keeps (ts ++ d.received steps) := by
  induction steps generalizing d ts with
  | nil => exact (List.append_nil ts).symm ▸ h
  | cons s steps ih =>
    have hrest := ih (h.next s)
    rwa [List.append_assoc] at hrest

theorem home_run (d : Disk) (steps : List Step) : (d.run steps).home = d.home := by
  have hnext (d : Disk) (s : Step) : (d.next s).home = d.home := by
    cases s with
    | add t =>
      rw [next, add]
      split <;> rfl
    | ask q => rfl
    | reopen => rfl
    | setVersion version =>
      rw [next, setVersion]
      cases d.files.database? d.path <;> rfl
  induction steps generalizing d with
  | nil => rfl
  | cons s steps ih => exact (ih (d.next s)).trans (hnext d s)

theorem Keeps.reopen (h : d.Keeps ts)
    (hv : d.version? = none ∨ d.version? = some Database.currentVersion) :
    d.reopen.1 = .ok () ∧ d.reopen.2.isOpen ∧
      d.reopen.2.version? = some Database.currentVersion ∧ d.reopen.2.Holds ts := by
  rcases h with ⟨hfresh, rfl⟩ | hholds
  · exact hfresh.reopen
  · obtain ⟨hput, hversion⟩ := hholds.put (some Database.currentVersion) ts
    rw [hholds.reopen hv]
    exact ⟨rfl, rfl, hversion, hput.withOpen true⟩

theorem Keeps.reopen_refused (h : d.Keeps ts) {v : Int} (hv : d.version? = some v)
    (hne : v ≠ Database.currentVersion) :
    d.reopen = (.error (.version v), { d with isOpen := false }) := by
  rcases h with ⟨hfresh, -⟩ | hholds
  · rw [version?, hfresh.missing] at hv
    cases hv
  · exact hholds.reopen_refused hv hne

theorem Keeps.reopen_iff (h : d.Keeps ts) : d.reopen.1 = .ok () ↔
    d.version? = none ∨ d.version? = some Database.currentVersion := by
  refine ⟨fun hok => ?_, fun hv => (h.reopen hv).1⟩
  by_contra hv
  rw [not_or] at hv
  obtain ⟨v, hsome⟩ := Option.ne_none_iff_exists'.1 hv.1
  rw [h.reopen_refused hsome fun he => hv.2 (he ▸ hsome)] at hok
  cases hok

theorem Keeps.holds (h : d.Keeps ts) (hopen : d.isOpen) : d.Holds ts := by
  rcases h with ⟨hfresh, -⟩ | hholds
  · rw [hfresh.closed] at hopen
    cases hopen
  · exact hholds

theorem Holds.serves (h : d.Holds ts) (hopen : d.isOpen) :
    (∀ q, d.reply? q = some ((Library.after d.home ts).reply q)) ∧
      ∀ t, (d.add t).1 = some ((Library.after d.home ts).add t).1 :=
  ⟨fun q => by rw [reply?, h.library? hopen, Option.map_some], fun t => by rw [h.add hopen]⟩

/-- There is no database, and there cannot be one. -/
structure Barred (d : Disk) (e : OpenError) : Prop where
  closed : d.isOpen = false
  missing : d.files.database? d.path = none
  fails : (d.files.openDatabase d.path).1 = .error e

theorem Barred.run {e : OpenError} (h : d.Barred e) (steps : List Step) :
    (d.run steps).Barred e := by
  have hnext {d : Disk} (h : d.Barred e) (s : Step) : (d.next s).Barred e := by
    cases s with
    | add t => rwa [Disk.next, add_of_closed h.closed]
    | ask q => exact h
    | reopen =>
      obtain ⟨-, hmissing, hfails⟩ := Files.openDatabase_fails h.missing h.fails
      exact ⟨congrArg Except.isOk h.fails, hmissing, hfails⟩
    | setVersion version => rwa [Disk.next, setVersion_of_missing h.missing]
  induction steps generalizing d with
  | nil => exact h
  | cons s steps ih => exact ih (hnext h s)

/-- A library is kept in a file, is opened again from there and again, and the row of its version is
changed from outside, in any order. Opening succeeds just if there is no version or it is the
current one, which it is then; otherwise the version that was found is named and no file changes.
While the library is open, it replies as the library in memory that received the tracks that were
added while it was open, and goes on from there; while it is not, nothing is added to it. All this
holds where there can be a database; elsewhere none is ever made. -/
theorem reopen_iff_version (files : Files) (path : Text) (home : OsText) (steps : List Step)
    (hnone : files.database? path = none) :
    let start : Disk := ⟨files, path, home, false⟩
    let d := start.run steps
    let lib := Library.after home (start.received steps)
    (start.reopen.1 = .ok () →
      (d.reopen.1 = .ok () ↔ d.version? = none ∨ d.version? = some Database.currentVersion) ∧
      (d.reopen.1 = .ok () → d.reopen.2.isOpen ∧
        d.reopen.2.version? = some Database.currentVersion ∧
        (∀ q, d.reopen.2.reply? q = some (lib.reply q)) ∧
        ∀ t, (d.reopen.2.add t).1 = some (lib.add t).1) ∧
      (∀ v, d.version? = some v → v ≠ Database.currentVersion →
        d.reopen = (.error (.version v), { d with isOpen := false })) ∧
      (d.isOpen → (∀ q, d.reply? q = some (lib.reply q)) ∧ ∀ t, (d.add t).1 = some (lib.add t).1) ∧
      (d.isOpen = false → (∀ q, d.reply? q = none) ∧ ∀ t, d.add t = (none, d))) ∧
    ∀ e, start.reopen.1 = .error e →
      d.reopen.1 = .error e ∧ (∀ v, e ≠ .version v) ∧ d.isOpen = false ∧ d.version? = none := by
  intro start d lib
  refine ⟨fun hopens => ?_, fun e hfails => ?_⟩
  · have hstart : start.Keeps [] := .inl ⟨⟨rfl, hnone, hopens⟩, rfl⟩
    have hkeeps : d.Keeps (start.received steps) := hstart.run steps
    have hhome : d.home = home := home_run start steps
    refine ⟨hkeeps.reopen_iff, fun hok => ?_, fun v => hkeeps.reopen_refused, fun hopen => ?_,
      fun hclosed => ?_⟩
    · obtain ⟨-, hopen, hversion, hholds⟩ := hkeeps.reopen (hkeeps.reopen_iff.1 hok)
      have hserves := hholds.serves hopen
      have hhome' : d.reopen.2.home = home := hhome
      rw [hhome'] at hserves
      exact ⟨hopen, hversion, hserves⟩
    · have hserves := (hkeeps.holds hopen).serves hopen
      rwa [hhome] at hserves
    · exact ⟨fun q => by rw [reply?, library?_of_closed hclosed]; rfl, add_of_closed hclosed⟩
  · have hbarred : d.Barred e := Barred.run ⟨rfl, hnone, hfails⟩ steps
    exact ⟨hbarred.fails, (Files.openDatabase_fails hnone hfails).1, hbarred.closed,
      by rw [version?, hbarred.missing]; rfl⟩

/-- A track is added, the version is spoilt, a second track comes too late, and the version is taken
away. -/
theorem reopen_iff_version_repaired :
    let t : Track := ⟨Text.utf8 "/m/a".toList, ['a'], none, none, []⟩
    let u : Track := ⟨Text.utf8 "/m/b".toList, ['b'], none, none, []⟩
    let steps : List Step :=
      [.reopen, .add t, .setVersion (some 2), .reopen, .add u, .setVersion none]
    let start : Disk := ⟨.empty, "/m/db".toList, Text.utf8 "/m".toList, false⟩
    start.files.database? start.path = none ∧ start.reopen.1 = .ok () ∧
      start.received steps = [t] ∧ (start.run steps).isOpen = false ∧
      (start.run steps).reopen.1 = .ok () ∧
      ∀ q, (start.run steps).reopen.2.reply? q = some ((Library.after start.home [t]).reply q) := by
  intro t u steps start
  have hnone : start.files.database? start.path = none := by decide +kernel
  have hopens : start.reopen.1 = .ok () := by decide +kernel
  have hreceived : start.received steps = [t] := by decide +kernel
  have hclosed : (start.run steps).isOpen = false := by decide +kernel
  have hversion : (start.run steps).version? = none := by decide +kernel
  obtain ⟨hiff, hserves, -⟩ :=
    (reopen_iff_version .empty start.path start.home steps hnone).1 hopens
  have hok := hiff.2 (.inl hversion)
  have hreplies := (hserves hok).2.2.1
  rw [hreceived] at hreplies
  exact ⟨hnone, hopens, hreceived, hclosed, hok, hreplies⟩

end Disk

end Jukebox
