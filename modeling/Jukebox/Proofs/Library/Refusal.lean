import Jukebox.Proofs.Library.History
import Jukebox.Proofs.Plan.Limits
import Jukebox.Proofs.Query.RoundTrip

set_option autoImplicit false

namespace Jukebox

open Lexeme

namespace Library

variable {lib : Library} {seed : Nat} {t : Text} {q : Query}

theorem select_of_not_query {e : ParseError} (h : Query.parse t = .error e) :
    lib.select seed t = .error (.query e) := by
  have hplans : plans t = .error (.query e) := by
    rw [plans, Query.compile, h]
    rfl
  rw [select, hplans]
  rfl

theorem select_error_query_iff {e : ParseError} :
    lib.select seed t = .error (.query e) ↔ Query.parse t = .error e := by
  refine ⟨fun h => ?_, select_of_not_query⟩
  cases hp : Query.parse t with
  | error e' =>
    rw [select_of_not_query hp] at h
    injection h with h
    injection h with h
    rw [h]
  | ok q =>
    rw [select_eq hp] at h
    split at h <;> cases h

theorem select_error_statement (hq : Query.parse t = .ok q) {cause : StatementError}
    (h : lib.select seed t = .error (.statement cause)) :
    ∃ p ∈ q.plans, lib.failure? p = some cause := by
  rw [select_eq hq] at h
  cases hf : q.plans.findSome? lib.failure? with
  | none =>
    rw [hf] at h
    cases h
  | some found =>
    rw [hf] at h
    injection h with h
    injection h with h
    exact h ▸ List.exists_of_findSome?_eq_some hf

theorem select_ok (hq : Query.parse t = .ok q) (hnone : ∀ p ∈ q.plans, lib.failure? p = none) :
    ∃ paths, lib.select seed t = .ok paths := by
  rw [select_eq hq, List.findSome?_eq_none_iff.2 hnone]
  exact ⟨_, rfl⟩

/-- A selection fails for its text only if the text is not a query. The plans of a query join no
table twice, filter no column twice, and filter and sort only by patterns and by columns that they
join, also where they lie inside another plan. So a database that is not asked for too much
answers, and it never finds a statement unsound. -/
theorem select_fails_only_unparsed (home : OsText) (ts : List Track) (seed : Nat) (t : Text) :
    (∀ e, (after home ts).select seed t = .error (.query e) ↔ Query.parse t = .error e) ∧
    ∀ q, Query.parse t = .ok q →
      (∀ p ∈ q.plans, ∀ l ∈ p.levels, l.Closed) ∧
      ((∀ p ∈ q.plans, p.WithinLimits) → ∃ paths, (after home ts).select seed t = .ok paths) ∧
      ∀ cause, (after home ts).select seed t = .error (.statement cause) → cause ≠ .unsound := by
  refine ⟨fun e => select_error_query_iff, fun q hq => ?_⟩
  have hwf := Query.wellFormed_of_parse hq
  have hclosed (p : Plan) (hp : p ∈ q.plans) : ∀ l ∈ p.levels, l.Closed :=
    Query.closed_plans hwf hp
  have hsound (p : Plan) (hp : p ∈ q.plans) : p.sound := Plan.sound_of_closed (hclosed p hp)
  refine ⟨hclosed, fun hlimits => ?_, ?_⟩
  · refine select_ok hq fun p hp => ?_
    exact failure?_eq_none (hsound p hp) (hlimits p hp) (Query.keyCount_plans_le hp)
  · rintro cause hfail rfl
    obtain ⟨p, hp, hcause⟩ := select_error_statement hq hfail
    exact failure?_ne_unsound (hsound p hp) hcause

theorem select_ok_narrowed :
    let t : Track := ⟨Text.utf8 ['x'], ['a'], some ['b'], some 1, [['c']]⟩
    let outer : Selection := ⟨[['a']], some [['b']], true, some [['c']], false⟩
    let inner : Selection := ⟨[matchAll], some [['b']], false, none, true⟩
    let q : Query := .link outer .and (.last inner)
    Query.parse q.render = .ok q ∧ (∀ p ∈ q.plans, ∀ l ∈ p.levels, l.Closed) ∧
      ∃ paths, (after music [t]).select 0 q.render = .ok paths := by
  intro t outer inner q
  have hb := Grammar.forall_eq_some (Writable.single (by decide : isNameChar 'b'))
  have hc := Grammar.forall_eq_some (Writable.single (by decide : isNameChar 'c'))
  have hwf : q.WellFormed :=
    ⟨⟨.single (by decide), hb, hc, by decide⟩, ⟨.single (by decide), hb, nofun, by decide⟩⟩
  have hparse := Query.parse_render hwf
  have hlimits : ∀ p ∈ q.plans, p.WithinLimits := by
    intro p hp
    obtain rfl := List.mem_singleton.1 hp
    exact ⟨by decide, by decide, by decide, by decide, by decide⟩
  obtain ⟨-, hall⟩ := select_fails_only_unparsed music [t] 0 q.render
  obtain ⟨hclosed, hok, -⟩ := hall q hparse
  exact ⟨hparse, hclosed, hok hlimits⟩

end Library

end Jukebox
