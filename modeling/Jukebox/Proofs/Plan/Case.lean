import Jukebox.Proofs.Pattern.Case
import Jukebox.Proofs.Plan.Sound
import Jukebox.Statement.Limits

set_option autoImplicit false

namespace Jukebox

def Filter.fold (f : Filter) : Filter := { f with patterns := f.patterns.map Pattern.fold }

def Key.fold : Key → Key
  | .rank c ps => .rank c (ps.map Pattern.fold)
  | .column c => .column c

def Order.fold : Order → Order
  | .random => .random
  | .keys ks => .keys (ks.map Key.fold)

def Level.fold (l : Level) : Level :=
  { l with filters := l.filters.map Filter.fold, order := l.order.fold }

def Plan.fold : Plan → Plan
  | .only l => .only l.fold
  | .within l inner => .within l.fold inner.fold

def Selection.fold (s : Selection) : Selection :=
  { s with
    titles := s.titles.map Text.fold
    albums := s.albums.map (·.map Text.fold)
    artists := s.artists.map (·.map Text.fold) }

def Query.fold : Query → Query
  | .last s => .last s.fold
  | .link s l rest => .link s.fold l rest.fold

theorem fold_eq_matchAll_iff {n : Text} : n.fold = matchAll ↔ n = matchAll :=
  Text.fold_eq_singleton_iff rfl

theorem mem_fold_matchAll {names : List Text} :
    matchAll ∈ names.map Text.fold ↔ matchAll ∈ names := by
  simp [fold_eq_matchAll_iff]

theorem narrowing?_fold (names? : Option (List Text)) :
    narrowing? (names?.map (·.map Text.fold)) =
      (narrowing? names?).map (·.map Pattern.fold) := by
  cases names? with
  | none => rfl
  | some names =>
    by_cases h : matchAll ∈ names
    · simp [narrowing?, h, fold_eq_matchAll_iff]
    · simp [narrowing?, h, fold_eq_matchAll_iff, Pattern.ofText_fold]

def Narrowing.fold (n : Narrowing) : Narrowing :=
  { n with filter := n.filter.fold, keys := n.keys.map Key.fold }

namespace Selection

theorem narrowings_fold (s : Selection) : s.fold.narrowings = s.narrowings.map Narrowing.fold := by
  have halbum : s.fold.byAlbum? = s.byAlbum?.map Narrowing.fold := by
    rw [byAlbum?, fold, narrowing?_fold, byAlbum?, Option.map_map, Option.map_map]
    congr 1
    funext ps
    cases s.ordered <;> rfl
  have hartist : s.fold.byArtist? = s.byArtist?.map Narrowing.fold := by
    rw [byArtist?, fold, narrowing?_fold, byArtist?, Option.map_map, Option.map_map]
    rfl
  rw [narrowings, halbum, hartist, narrowings, List.map_append]
  cases s.byAlbum? <;> cases s.byArtist? <;> rfl

theorem titleFilters_fold (s : Selection) :
    s.fold.titleFilters = s.titleFilters.map Filter.fold := by
  have hfilter : s.fold.titles.filter (· ≠ matchAll) =
      (s.titles.filter (· ≠ matchAll)).map Text.fold := by
    rw [fold, List.filter_map]
    congr 2
    funext n
    simp [fold_eq_matchAll_iff]
  unfold titleFilters
  rw [hfilter]
  cases s.titles.filter (· ≠ matchAll) with
  | nil => rfl
  | cons n names => simp [Filter.fold, Pattern.ofText_fold]

theorem titleKeys_fold (s : Selection) : s.fold.titleKeys = s.titleKeys.map Key.fold := by
  simp [titleKeys, fold, Key.fold, Pattern.ofText_fold]

theorem level_fold (s : Selection) : s.fold.level = s.level.fold := by
  have horder : s.fold.level.order = s.level.order.fold := by
    have hkeys : s.fold.narrowings.flatMap Narrowing.keys ++ s.fold.titleKeys =
        (s.narrowings.flatMap Narrowing.keys ++ s.titleKeys).map Key.fold := by
      rw [narrowings_fold, titleKeys_fold, List.flatMap_map, List.map_append, List.map_flatMap]
      rfl
    rw [level, hkeys, level]
    cases hs : s.shuffle <;> simp [fold, hs, Order.fold]
  have hfilters : s.fold.level.filters = s.level.filters.map Filter.fold := by
    change s.fold.narrowings.map Narrowing.filter ++ s.fold.titleFilters =
      (s.narrowings.map Narrowing.filter ++ s.titleFilters).map Filter.fold
    rw [narrowings_fold, titleFilters_fold, List.map_append, List.map_map, List.map_map]
    rfl
  have hjoins : s.fold.level.joins = s.level.joins := by
    rw [level, narrowings_fold, List.map_map]
    rfl
  rw [Level.fold, ← horder, ← hfilters, ← hjoins]

end Selection

namespace Query

theorem firstPlan_fold (q : Query) : q.fold.firstPlan = q.firstPlan.fold := by
  induction q with
  | last s => exact congrArg Plan.only s.level_fold
  | link s l rest ih =>
    cases l with
    | or => exact congrArg Plan.only s.level_fold
    | and =>
      have hunordered (p : Plan) : p.fold.unordered = p.unordered.fold := by cases p <;> rfl
      rw [fold, firstPlan, ih, s.level_fold, hunordered]
      rfl

theorem plans_fold (q : Query) : q.fold.plans = q.plans.map Plan.fold := by
  induction q with
  | last s => exact congrArg ([·]) (firstPlan_fold (.last s))
  | link s l rest ih =>
    cases l with
    | and => exact congrArg ([·]) (firstPlan_fold (.link s .and rest))
    | or => rw [plans, List.map_cons, ← firstPlan_fold, ← ih, fold, plans]

end Query

theorem Key.sql_fold (k : Key) : k.fold.sql = k.sql := by
  cases k with
  | column c => rfl
  | rank c ps =>
    have hcons (n : Nat) (p : Pattern) (ps : List Pattern) : armsSql c n (p :: ps) =
        " WHEN ".toList ++ c.likeSql ++ " THEN ".toList ++ Text.ofNat n ++
          armsSql c (n + 1) ps := rfl
    have harms (n : Nat) : armsSql c n (ps.map Pattern.fold) = armsSql c n ps := by
      induction ps generalizing n with
      | nil => rfl
      | cons p ps ih => rw [List.map_cons, hcons, hcons, ih]
    have hrank (ps : List Pattern) : sql (.rank c ps) =
        "CASE".toList ++ armsSql c 0 ps ++ " ELSE ".toList ++ Text.ofNat ps.length ++
          " END".toList := rfl
    rw [fold, hrank, harms, List.length_map, hrank]

theorem Order.sql_fold (o : Order) (grouped : Bool) : o.fold.sql grouped = o.sql grouped := by
  cases o with
  | random => rfl
  | keys ks => cases ks with
    | nil => rfl
    | cons k ks =>
      have hcons (k : Key) (ks : List Key) : sql grouped (.keys (k :: ks)) =
          " ORDER BY ".toList ++ Text.join ", " ((k :: ks).map fun k =>
            if grouped then "MIN(".toList ++ k.sql ++ [')'] else k.sql) := rfl
      have hkeys : ((k :: ks).map Key.fold).map (fun k =>
            if grouped then "MIN(".toList ++ k.sql ++ [')'] else k.sql) =
          (k :: ks).map fun k => if grouped then "MIN(".toList ++ k.sql ++ [')'] else k.sql := by
        rw [List.map_map]
        refine List.map_congr_left fun k _ => ?_
        rw [Function.comp_apply, k.sql_fold]
      rw [fold, hcons, ← hkeys, List.map_cons, hcons]

namespace Plan

theorem chainDepth_fold (fs : List Filter) :
    (fs.map Filter.fold).map Filter.depth = fs.map Filter.depth := by
  simp [Filter.depth, Filter.fold]

theorem depth_fold (p : Plan) : p.fold.depth = p.depth := by
  induction p with
  | only l => simp only [fold, depth, Level.fold, chainDepth_fold]
  | within l inner ih => simp only [fold, depth, Level.fold, chainDepth_fold, ih]

theorem top_fold (p : Plan) : p.fold.top = p.top.fold := by cases p <;> rfl

theorem joinedDepth_fold (p : Plan) : p.fold.joinedDepth = p.joinedDepth := by
  rw [joinedDepth, depth_fold, top_fold]
  rfl

theorem totalDepth_fold (p : Plan) : p.fold.totalDepth = p.totalDepth := by
  induction p with
  | only l => exact congrArg (max 2) (joinedDepth_fold (.only l))
  | within l inner ih =>
    rw [fold, totalDepth, ih]
    exact congrArg (· + inner.totalDepth) (joinedDepth_fold (.within l inner))

theorem keyCount_fold (p : Plan) : p.fold.keyCount = p.keyCount := by
  rw [keyCount, top_fold, keyCount, Level.fold]
  cases p.top.order <;> simp [Order.fold]

theorem soundIn_fold (p : Plan) (around : List Join) :
    p.fold.soundIn around = p.soundIn around := by
  have hlevel (l : Level) (around : List Join) : l.fold.sound around = l.sound around := by
    have hfilter (f : Filter) (joins : List Join) : f.fold.sound joins = f.sound joins := by
      simp [Filter.sound, Filter.fold]
    have hcomp : Filter.sound (l.joins ++ around) ∘ Filter.fold =
        Filter.sound (l.joins ++ around) :=
      funext fun f => hfilter f _
    rw [Level.sound, Level.fold, List.all_map, hcomp, Level.sound]
  induction p generalizing around with
  | only l => exact hlevel l around
  | within l inner ih =>
    rw [fold, soundIn, hlevel, ih]
    rfl

theorem sound_fold (p : Plan) : p.fold.sound = p.sound := by
  have hkey (k : Key) (joins : List Join) : k.fold.sound joins = k.sound joins := by
    cases k <;> simp [Key.fold, Key.sound]
  have horder : p.fold.top.order.sound p.fold.top.joins = p.top.order.sound p.top.joins := by
    rw [top_fold, Level.fold]
    cases p.top.order <;> simp [Order.fold, Order.sound, List.all_map, Function.comp_def, hkey]
  rw [sound, horder, soundIn_fold, sound]

theorem levels_fold (p : Plan) : p.fold.levels = p.levels.map Level.fold := by
  induction p with
  | only l => rfl
  | within l inner ih => rw [fold, levels, ih, levels, List.map_cons]

theorem top_joins_fold (p : Plan) : p.fold.top.joins = p.top.joins := by rw [top_fold, Level.fold]

theorem top_order_fold (p : Plan) : p.fold.top.order = p.top.order.fold := by
  rw [top_fold, Level.fold]

theorem selectSql_fold (p : Plan) (output : String) :
    p.fold.selectSql output = p.selectSql output := by
  have hbody (output : String) (l : Level) (more : List Text) :
      selectSql.body output l.fold more = selectSql.body output l more := by
    have hfilters : (l.filters.map Filter.fold).map Filter.sql = l.filters.map Filter.sql := by
      rw [List.map_map]
      refine List.map_congr_left fun f _ => ?_
      simp only [Function.comp_apply, Filter.sql, Filter.fold, List.map_map, Function.comp_def]
    simp only [selectSql.body, Level.fold, hfilters]
  induction p generalizing output with
  | only l => exact hbody output l []
  | within l inner ih => simp only [fold, selectSql, ih, hbody]

theorem sql_fold (p : Plan) : p.fold.sql = p.sql := by
  simp only [sql, selectSql_fold, top_joins_fold, top_order_fold, Order.sql_fold]

theorem params_fold (p : Plan) : p.fold.statement.params = p.statement.params.map Text.fold := by
  have hfilter (f : Filter) : f.fold.params = f.params.map Text.fold := by
    simp [Filter.params, Filter.fold]
  have hlevel (l : Level) : l.fold.filters.flatMap Filter.params =
      (l.filters.flatMap Filter.params).map Text.fold := by
    simp only [Level.fold, List.flatMap_map, hfilter, List.map_flatMap]
  have hselect : p.fold.selectParams = p.selectParams.map Text.fold := by
    rw [selectParams, levels_fold, List.flatMap_map, selectParams, List.map_flatMap]
    exact congrArg p.levels.flatMap (funext hlevel)
  have horder : p.fold.top.order.params = p.top.order.params.map Text.fold := by
    have hkey (k : Key) : k.fold.params = k.params.map Text.fold := by
      cases k <;> simp [Key.fold, Key.params]
    rw [top_order_fold]
    cases p.top.order with
    | random => rfl
    | keys ks => simp only [Order.fold, Order.params, List.flatMap_map, hkey, List.map_flatMap]
  rw [statement, hselect, horder, ← List.map_append, statement]

/-- The case of a pattern does not get into the text of a statement, nor does it count. -/
theorem refusal?_fold (p : Plan) : p.fold.refusal? = p.refusal? := by
  rw [refusal?, sound_fold, depth_fold, params_fold, List.length_map, sql_fold, totalDepth_fold,
    keyCount_fold, refusal?]

end Plan

end Jukebox
