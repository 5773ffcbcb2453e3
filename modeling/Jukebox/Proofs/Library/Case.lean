import Jukebox.Proofs.Plan.Case
import Jukebox.Proofs.Plan.Limits

set_option autoImplicit false

namespace Jukebox

namespace Pattern

theorem admitsValue_fold (p : Pattern) (v : Cell) : p.fold.admitsValue v = p.admitsValue v := by
  unfold admitsValue
  cases v.shown? with
  | none => rfl
  | some t => exact p.admits_fold t

theorem tryFails_fold (v : Cell) (ps : List Pattern) :
    tryFails v (ps.map fold) = tryFails v ps := by
  induction ps with
  | nil => rfl
  | cons p ps ih => rw [List.map_cons, tryFails, tooLong_fold, admitsValue_fold, ih, tryFails]

theorem any_tooLong_fold (ps : List Pattern) : (ps.map fold).any tooLong = ps.any tooLong := by
  rw [List.any_map]
  exact congrArg ps.any (funext tooLong_fold)

end Pattern

namespace Row

theorem passes_fold (r : Row) (f : Filter) : r.passes f.fold = r.passes f := by
  simp only [passes, Filter.fold, List.any_map, Function.comp_def, Pattern.admitsValue_fold]

theorem key_fold (r : Row) (k : Key) : r.key k.fold = r.key k := by
  cases k with
  | column c => rfl
  | rank c ps =>
    simp only [Key.fold, key, List.findIdx_map, Function.comp_def, Pattern.admitsValue_fold]

theorem filterFails_fold (r : Row) (fs : List Filter) :
    r.filterFails (fs.map Filter.fold) = r.filterFails fs := by
  induction fs with
  | nil => rfl
  | cons f fs ih =>
    rw [List.map_cons, filterFails, passes_fold, ih, Filter.fold, Pattern.tryFails_fold,
      filterFails]

theorem keyFails_fold (r : Row) (k : Key) : r.keyFails k.fold = r.keyFails k := by
  cases k with
  | column c => rfl
  | rank c ps => exact Pattern.tryFails_fold (r.value c) ps

end Row

theorem Level.hasLongPattern_fold (l : Level) : l.fold.hasLongPattern = l.hasLongPattern := by
  simp only [hasLongPattern, fold, List.any_map, Function.comp_def, Filter.fold,
    Pattern.tooLong_fold]

theorem Order.hasLongPattern_fold (o : Order) : o.fold.hasLongPattern = o.hasLongPattern := by
  cases o with
  | random => rfl
  | keys ks =>
    rw [fold, hasLongPattern, List.any_map, hasLongPattern]
    congr 1
    funext k
    cases k with
    | column c => rfl
    | rank c ps => exact Pattern.any_tooLong_fold ps

def Stage.fold (s : Stage) : Stage := ⟨s.join, s.filters.map Filter.fold⟩

namespace Catalogue

variable (c : Catalogue)

theorem levelRows_fold (l : Level) (around : Row) :
    c.levelRows l.fold around = c.levelRows l around := by
  have hpass : (fun r : Row => l.fold.filters.all r.passes) = fun r => l.filters.all r.passes := by
    funext r
    rw [Level.fold, List.all_map]
    exact congrArg l.filters.all (funext r.passes_fold)
  rw [levelRows, hpass]
  rfl

theorem passing_fold (p : Plan) (around : Row) : c.passing p.fold around = c.passing p around := by
  induction p generalizing around with
  | only l => exact c.levelRows_fold l around
  | within l inner ih =>
    simp only [Plan.fold, passing, Plan.soundIn_fold, ih, levelRows_fold]

theorem rowsOf_fold (p : Plan) (t : TrackRow) : c.rowsOf p.fold t = c.rowsOf p t :=
  c.passing_fold p _

theorem finds_fold (p : Plan) : c.finds p.fold = c.finds p := by
  funext t
  rw [finds, rowsOf_fold, finds]

theorem sortKey_fold (p : Plan) (ks : List Key) (t : TrackRow) :
    c.sortKey p.fold (ks.map Key.fold) t = c.sortKey p ks t := by
  simp only [sortKey, rowsOf_fold, List.map_map, Function.comp_def, Row.key_fold]

theorem found_fold (seed : Nat) (p : Plan) : c.found seed p.fold = c.found seed p := by
  rw [found, finds_fold, arrange, Plan.top_order_fold, found, arrange]
  cases p.top.order with
  | random => rfl
  | keys ks => simp only [Order.fold, sortKey_fold]

theorem stages_fold (l : Level) (s : Standing) : l.fold.stages s = (l.stages s).map Stage.fold := by
  have hstage (join : Option Join) (columns : List Column) :
      l.fold.stage join columns = (l.stage join columns).fold := by
    simp only [Level.stage, Level.fold, Stage.fold, List.filter_map, List.map_flatMap]
    rfl
  have hjoined (j : Join) : l.fold.joined j = l.joined j := rfl
  cases s with
  | around => simp only [Level.stages, hstage, hjoined, List.map_cons, List.map_nil]
  | alone | innermost =>
    rw [Level.stages, Level.stages, hjoined, hjoined]
    cases l.joined .albums <;> cases l.joined .artists <;>
      simp only [hstage, List.map_cons, List.map_nil]

theorem stagesFail_fold (ss : List Stage) (r : Row) :
    c.stagesFail (ss.map Stage.fold) r = c.stagesFail ss r := by
  induction ss generalizing r with
  | nil => rfl
  | cons s ss ih =>
    have hpass (r : Row) : (s.filters.map Filter.fold).all r.passes = s.filters.all r.passes := by
      rw [List.all_map]
      exact congrArg s.filters.all (funext r.passes_fold)
    simp only [List.map_cons, stagesFail, Stage.fold, Row.filterFails_fold, hpass, ih]

theorem filteringFailsIn_fold (s : Standing) (p : Plan) :
    c.filteringFailsIn s p.fold = c.filteringFailsIn s p := by
  have hlevel (ts : List TrackRow) (l : Level) (s : Standing) :
      c.levelFails ts l.fold s = c.levelFails ts l s := by
    simp only [levelFails, stages_fold, stagesFail_fold]
  induction p generalizing s with
  | only l => exact hlevel c.tracks l s
  | within l inner ih =>
    rw [Plan.fold, filteringFailsIn, ih, finds_fold, hlevel, filteringFailsIn]

theorem sortingFails_fold (p : Plan) : c.sortingFails p.fold = c.sortingFails p := by
  rw [sortingFails, Plan.top_order_fold, sortingFails]
  cases p.top.order with
  | random => rfl
  | keys ks =>
    simp only [Order.fold, rowsOf_fold, List.any_map, Function.comp_def, Row.keyFails_fold]

theorem comparisonFails_fold (p : Plan) : c.comparisonFails p.fold = c.comparisonFails p := by
  have hlevels : p.fold.levels.any Level.hasLongPattern = p.levels.any Level.hasLongPattern := by
    rw [Plan.levels_fold, List.any_map]
    exact congrArg p.levels.any (funext Level.hasLongPattern_fold)
  rw [comparisonFails, Plan.top_order_fold, Order.hasLongPattern_fold, hlevels, filteringFails,
    filteringFailsIn_fold, sortingFails_fold, comparisonFails, filteringFails]

end Catalogue

namespace Library

variable (lib : Library)

theorem failure?_fold (p : Plan) : lib.failure? p.fold = lib.failure? p := by
  rw [failure?, Plan.refusal?_fold, Catalogue.comparisonFails_fold, failure?]

theorem paths_fold (seed : Nat) (p : Plan) : lib.paths seed p.fold = lib.paths seed p := by
  rw [paths, Catalogue.found_fold, paths]

theorem run_fold (seed : Nat) (ps : List Plan) :
    lib.run seed (ps.map Plan.fold) = lib.run seed ps := by
  have hfail : lib.failure? ∘ Plan.fold = lib.failure? := funext lib.failure?_fold
  have hpaths : lib.paths seed ∘ Plan.fold = lib.paths seed := funext (lib.paths_fold seed)
  rw [run_eq, run_eq, List.findSome?_map, List.map_map, hfail, hpaths]

end Library

end Jukebox
