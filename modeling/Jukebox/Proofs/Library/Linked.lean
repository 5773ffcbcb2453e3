import Jukebox.Proofs.Library.Meaning
import Jukebox.Proofs.Query.Linked

set_option autoImplicit false

namespace Jukebox

open Lexeme

namespace Query

def links (q : Query) : List Link := q.tail.map Prod.fst

theorem firstPlan_append_or (more q : Query) : (append .or more q).firstPlan = q.firstPlan := by
  induction q with
  | last s => rfl
  | link s l rest ih =>
    cases l with
    | and => rw [append, firstPlan, firstPlan, ih]
    | or => rfl

theorem plans_append_or {q : Query} (h : .and ∉ q.links) (more : Query) :
    (append .or more q).plans = q.plans ++ more.plans := by
  induction q with
  | last s => rfl
  | link s l rest ih =>
    cases l with
    | and => exact absurd List.mem_cons_self h
    | or =>
      have hrest : .and ∉ rest.links := fun hm => h (List.mem_cons_of_mem _ hm)
      rw [append, plans, plans, ih hrest, List.cons_append]
      rfl

/-- An `or` below an `and` adds no plan. -/
theorem plans_append_or_of_narrowed {q : Query} (h : .and ∈ q.links) (more : Query) :
    (append .or more q).plans = q.plans := by
  induction q with
  | last s => cases h
  | link s l rest ih =>
    cases l with
    | and => rw [append, plans, plans, firstPlan, firstPlan, firstPlan_append_or]
    | or =>
      rcases List.mem_cons.1 h with he | hrest
      · cases he
      · rw [append, plans, plans, ih hrest]
        rfl

end Query

namespace Catalogue

theorem found_seed (c : Catalogue) {p : Plan} (hp : p.top.order ≠ .random) (seed seed' : Nat) :
    c.found seed p = c.found seed' p := by
  unfold found arrange
  split
  · next h => exact absurd h hp
  · rfl

end Catalogue

namespace Library

theorem run_seed (lib : Library) {ps : List Plan} (h : ∀ p ∈ ps, p.top.order ≠ .random)
    (seed seed' : Nat) : lib.run seed ps = lib.run seed' ps := by
  have hpaths : ps.map (lib.paths seed) = ps.map (lib.paths seed') := by
    refine List.map_congr_left fun p hp => ?_
    rw [paths, paths, lib.catalogue.found_seed (h p hp) seed seed']
  rw [run_eq, run_eq, hpaths]

theorem run_append (lib : Library) (seed : Nat) (ps qs : List Plan) :
    lib.run seed (ps ++ qs) = do return (← lib.run seed ps) ++ (← lib.run seed qs) := by
  rw [run_eq, run_eq, run_eq, List.findSome?_append, List.map_append, List.flatten_append]
  cases ps.findSome? lib.failure? with
  | some e => rfl
  | none => cases qs.findSome? lib.failure? <;> rfl

/-- Two texts with a link between them read as the first query with the second linked to its end, or
fail where the second one fails. With `or` they select what both select, one after the other; but
after an `and` in the first text, an `or` adds nothing. -/
theorem select_behind_append {s : Text} {q : Query} (h : Query.parse s = .ok q) :
    (∀ (l : Link) t r, Query.parse t = .ok r →
      Query.parse (l.behind s ++ t) = .ok (Query.append l r q)) ∧
    (∀ (l : Link) t e, Query.parse t = .error e → Query.parse (l.behind s ++ t) =
      .error { e.shift (Text.bytes (l.behind s)) with source := some (l.behind s ++ t) }) ∧
    ∀ (lib : Library) t r seed₁ seed₂ seed, Query.parse t = .ok r → q.Unshuffled →
      (.and ∉ q.links → r.Unshuffled → lib.select seed (Link.or.behind s ++ t) =
        do return (← lib.select seed₁ s) ++ (← lib.select seed₂ t)) ∧
      (.and ∈ q.links → lib.select seed (Link.or.behind s ++ t) = lib.select seed₁ s) := by
  have hparse (l : Link) {t : Text} {r : Query} (hr : Query.parse t = .ok r) :
      Query.parse (l.behind s ++ t) = .ok (Query.append l r q) := by
    rw [Query.parse_behind_append h, hr]
  refine ⟨fun l t r => hparse l, ?_, ?_⟩
  · intro l t e he
    rw [Query.parse_behind_append h, he]
  · intro lib t r seed₁ seed₂ seed hr hq
    have hfirst := lib.run_seed (fun p => Query.order_ne_random hq) seed₁ seed
    rw [select_eq_run (hparse .or hr), select_eq_run h, select_eq_run hr, hfirst]
    constructor
    · intro hnone hr
      have hsecond := lib.run_seed (fun p => Query.order_ne_random hr) seed₂ seed
      rw [Query.plans_append_or hnone, run_append, hsecond]
    · intro hand
      rw [Query.plans_append_or_of_narrowed hand]

theorem select_behind_append_titles :
    let title (c : Char) : Selection := .ofTitles [[c]]
    let narrowed : Query := .link (title 'a') .and (.last (title 'b'))
    let lib := after music
      [⟨Text.utf8 ['x'], ['a'], none, none, []⟩, ⟨Text.utf8 ['y'], ['c'], none, none, []⟩]
    Query.parse ['a'] = .ok (.last (title 'a')) ∧ Query.parse ['c'] = .ok (.last (title 'c')) ∧
      (lib.select 0 (Link.or.behind ['a'] ++ ['c']) =
        do return (← lib.select 1 ['a']) ++ (← lib.select 2 ['c'])) ∧
      Query.parse narrowed.render = .ok narrowed ∧
      lib.select 0 (Link.or.behind narrowed.render ++ ['c']) = lib.select 1 narrowed.render := by
  intro title narrowed lib
  have hwf (c : Char) (hc : isNameChar c) : (title c).WellFormed := wellFormed_ofTitles (.single hc)
  have ha : Query.parse (Query.last (title 'a')).render = .ok (.last (title 'a')) :=
    Query.parse_render (hwf 'a' (by decide))
  have hc : Query.parse (Query.last (title 'c')).render = .ok (.last (title 'c')) :=
    Query.parse_render (hwf 'c' (by decide))
  have hn : Query.parse narrowed.render = .ok narrowed :=
    Query.parse_render ⟨hwf 'a' (by decide), hwf 'b' (by decide)⟩
  have hor := ((select_behind_append ha).2.2 lib _ _ 1 2 0 hc (by decide)).1 (by decide) (by decide)
  have hand := ((select_behind_append hn).2.2 lib _ _ 1 2 0 hc (by decide)).2 (by decide)
  exact ⟨ha, hc, hor, hn, hand⟩

end Library

end Jukebox
