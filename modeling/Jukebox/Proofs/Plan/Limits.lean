import Jukebox.Library
import Jukebox.Proofs.Plan.Sound

set_option autoImplicit false

namespace Jukebox

structure Plan.WithinLimits (p : Plan) : Prop where
  depth : p.depth ≤ maxDepth
  totalDepth : p.totalDepth ≤ maxDepth
  params : p.statement.params.length ≤ maxParameters
  order : p.top.order.hasLongPattern = false
  filters : ∀ l ∈ p.levels, l.hasLongPattern = false

theorem Selection.length_keys_le {s : Selection} {ks : List Key} (h : s.level.order = .keys ks) :
    ks.length ≤ 7 := by
  have hkeys : (s.narrowings.flatMap Narrowing.keys ++ s.titleKeys).length ≤ 7 := by
    cases ha : narrowing? s.albums <;> cases hb : narrowing? s.artists <;>
      cases ho : s.ordered <;> simp [narrowings, byAlbum?, byArtist?, titleKeys, ha, hb, ho]
  unfold level at h
  cases hs : s.shuffle
  · simp only [hs, Bool.false_eq_true, if_false, Order.keys.injEq] at h
    rwa [← h]
  · simp [hs] at h

namespace Query

theorem keyCount_firstPlan_le (q : Query) : q.firstPlan.keyCount ≤ 7 := by
  rw [Plan.keyCount, top_firstPlan]
  split
  · exact Nat.zero_le 7
  · next h => exact q.head.length_keys_le h

theorem keyCount_plans_le {q : Query} {p : Plan} (hp : p ∈ q.plans) :
    p.keyCount ≤ Plan.maxKeys := by
  rw [plans_eq] at hp
  obtain ⟨n, -, rfl⟩ := List.mem_map.1 hp
  exact Nat.le_trans n.keyCount_firstPlan_le (by decide)

end Query

namespace Library

variable {lib : Library} {p : Plan}

theorem failure?_ne_unsound (h : p.sound) : lib.failure? p ≠ some .unsound := by
  have hrefusal : p.refusal? ≠ some .unsound := by
    rw [Plan.refusal?, h, if_neg (by simp)]
    split
    · nofun
    · split
      · nofun
      · split
        · nofun
        · split <;> nofun
  unfold failure?
  cases hr : p.refusal? with
  | some e => rwa [hr] at hrefusal
  | none =>
    rw [Option.none_or]
    split <;> nofun

theorem failure?_eq_none (h : p.sound) (hl : p.WithinLimits) (hk : p.keyCount ≤ Plan.maxKeys) :
    lib.failure? p = none := by
  have hcompare : lib.catalogue.comparisonFails p = false := by
    have hfilters : p.levels.any Level.hasLongPattern = false := by
      rw [List.any_eq_false]
      exact fun l hl' => by simp [hl.filters l hl']
    rw [Catalogue.comparisonFails, hl.order, hfilters]
    rfl
  have hrefusal : p.refusal? = none := by
    rw [Plan.refusal?, h, if_neg (by simp), if_neg (Nat.not_lt.2 hl.depth),
      if_neg (Nat.not_lt.2 hl.params), if_neg (Nat.not_lt.2 hl.totalDepth),
      if_neg (Nat.not_lt.2 hk)]
  rw [failure?, hrefusal, hcompare]
  rfl

theorem failure?_of_mem_plans (lib : Library) {q : Query} (hq : q.WellFormed) (hp : p ∈ q.plans)
    (hl : p.WithinLimits) : lib.failure? p = none :=
  failure?_eq_none (Plan.sound_of_closed (Query.closed_plans hq hp)) hl (Query.keyCount_plans_le hp)

theorem runOne_eq_ok_iff {seed : Nat} {paths : List OsText} :
    lib.runOne seed p = .ok paths ↔ lib.failure? p = none ∧ paths = lib.paths seed p := by
  unfold runOne
  cases lib.failure? p <;> simp [eq_comm]

theorem runEach_eq (lib : Library) (seed : Nat) (ps : List Plan) :
    lib.runEach seed ps = match ps.findSome? lib.failure? with
      | some e => .error (.statement e)
      | none => .ok (ps.map (lib.paths seed)) := by
  unfold runEach
  induction ps with
  | nil => rfl
  | cons p ps ih =>
    rw [List.mapM_cons, ih, runOne, List.findSome?_cons]
    cases lib.failure? p with
    | some e => rfl
    | none => cases ps.findSome? lib.failure? <;> rfl

theorem runEach_eq_ok_iff {seed : Nat} {ps : List Plan} {answers : List (List OsText)} :
    lib.runEach seed ps = .ok answers ↔
      (∀ p ∈ ps, lib.failure? p = none) ∧ answers = ps.map (lib.paths seed) := by
  rw [runEach_eq, ← List.findSome?_eq_none_iff]
  cases ps.findSome? lib.failure? with
  | none => simp [eq_comm]
  | some e => simp

theorem runEach_eq_error {seed : Nat} {ps : List Plan} {e : SelectError}
    (h : lib.runEach seed ps = .error e) :
    ∃ p ∈ ps, ∃ cause, e = .statement cause ∧ lib.failure? p = some cause := by
  rw [runEach_eq] at h
  cases hf : ps.findSome? lib.failure? with
  | none =>
    rw [hf] at h
    cases h
  | some cause =>
    rw [hf] at h
    cases h
    obtain ⟨p, hp, hcause⟩ := List.exists_of_findSome?_eq_some hf
    exact ⟨p, hp, cause, rfl, hcause⟩

theorem run_eq (lib : Library) (seed : Nat) (ps : List Plan) :
    lib.run seed ps = match ps.findSome? lib.failure? with
      | some e => .error (.statement e)
      | none => .ok (ps.map (lib.paths seed)).flatten := by
  rw [run, runEach_eq]
  cases ps.findSome? lib.failure? <;> rfl

theorem run_eq_ok_iff {seed : Nat} {ps : List Plan} {paths : List OsText} :
    lib.run seed ps = .ok paths ↔
      (∀ p ∈ ps, lib.failure? p = none) ∧ paths = (ps.map (lib.paths seed)).flatten := by
  rw [run_eq, ← List.findSome?_eq_none_iff]
  cases ps.findSome? lib.failure? <;> simp [eq_comm]

theorem select_eq_run {t : Text} {q : Query} (h : Query.parse t = .ok q) (lib : Library)
    (seed : Nat) : lib.select seed t = lib.run seed q.plans := by
  rw [select, plans, Query.compile, h]
  rfl

theorem select_eq {t : Text} {q : Query} (h : Query.parse t = .ok q) (lib : Library) (seed : Nat) :
    lib.select seed t = match q.plans.findSome? lib.failure? with
      | some e => .error (.statement e)
      | none => .ok (q.plans.map (lib.paths seed)).flatten := by
  rw [select_eq_run h, run_eq]

theorem select_eq_ok_iff {t : Text} {q : Query} (h : Query.parse t = .ok q) {seed : Nat}
    {paths : List OsText} :
    lib.select seed t = .ok paths ↔
      ∃ answers, lib.runEach seed q.plans = .ok answers ∧ paths = answers.flatten := by
  rw [select_eq_run h, run]
  cases lib.runEach seed q.plans <;> simp [Except.map, eq_comm]

theorem select_eq_error_iff {t : Text} {q : Query} (h : Query.parse t = .ok q) {seed : Nat}
    {e : SelectError} :
    lib.select seed t = .error e ↔ lib.runEach seed q.plans = .error e := by
  rw [select_eq_run h, run]
  cases lib.runEach seed q.plans <;> simp [Except.map]

end Library

end Jukebox
