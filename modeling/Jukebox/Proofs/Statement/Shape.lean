import Jukebox.Proofs.Plan.Sound
import Jukebox.Proofs.Statement.Reading

/-!
The text of a statement is that of the shape of its plan, and the parameters are told apart by the
operands of its patterns.
-/

set_option autoImplicit false

namespace Jukebox

section Text

variable {R : Pattern → Pattern → Prop}

theorem map_eq_of_forall₂ {α : Type} {S : α → α → Prop} {f : α → Text}
    (hf : ∀ a b, S a b → f a = f b) {as bs : List α} (h : List.Forall₂ S as bs) :
    as.map f = bs.map f := by
  induction h with
  | nil => rfl
  | cons hab _ ih => rw [List.map_cons, List.map_cons, hf _ _ hab, ih]

theorem Filter.Parallel.sql_eq {f g : Filter} (h : f.Parallel R g) : f.sql = g.sql := by
  rw [Filter.sql, Filter.sql, h.1, map_eq_of_forall₂ (fun _ _ _ => rfl) h.2]

theorem armsSql_eq {ps qs : List Pattern} (h : List.Forall₂ R ps qs) (c : Column) (n : Nat) :
    Key.armsSql c n ps = Key.armsSql c n qs := by
  induction h generalizing n with
  | nil => rfl
  | @cons p q ps qs _ _ ih =>
    have hp := Key.armsSql_append c n p ps []
    have hq := Key.armsSql_append c n q qs []
    rw [List.append_nil, ih, ← hq, List.append_nil] at hp
    exact hp

theorem Key.Parallel.sql_eq {k l : Key} (h : k.Parallel R l) : k.sql = l.sql := by
  cases h with
  | column c => rfl
  | rank c h =>
    have hrank (ps : List Pattern) : (Key.rank c ps).sql = "CASE".toList ++ Key.armsSql c 0 ps ++
      " ELSE ".toList ++ Text.ofNat ps.length ++ " END".toList := rfl
    rw [hrank, hrank, armsSql_eq h, h.length_eq]

theorem Order.Parallel.sql_eq {o o' : Order} (h : o.Parallel R o') (grouped : Bool) :
    o.sql grouped = o'.sql grouped := by
  have hkeys (k : Key) (ks : List Key) : (Order.keys (k :: ks)).sql grouped =
      " ORDER BY ".toList ++ Text.join ", " ((k :: ks).map (Key.sortSql grouped)) := rfl
  cases h with
  | random => rfl
  | keys h =>
    have hmap := map_eq_of_forall₂ (f := Key.sortSql grouped)
      (fun k l (hkl : k.Parallel R l) => by rw [Key.sortSql, Key.sortSql, hkl.sql_eq]) h
    cases h with
    | nil => rfl
    | cons _ _ => rw [hkeys, hkeys, hmap]

theorem selectSql_eq {p q : Plan} (h : List.Forall₂ (Level.Parallel R) p.levels q.levels)
    (output : String) : p.selectSql output = q.selectSql output := by
  have hfilters {l m : Level} (hlm : l.Parallel R m) :
      l.filters.map Filter.sql = m.filters.map Filter.sql :=
    map_eq_of_forall₂ (fun _ _ hfg => hfg.sql_eq) hlm.filters
  have hbody {l m : Level} (hlm : l.Parallel R m) (output : String) (more : List Text) :
      Plan.selectSql.body output l more = Plan.selectSql.body output m more := by
    rw [Plan.selectSql.body, Plan.selectSql.body, hlm.joins, hfilters hlm]
  have hends {l : Level} {inner : Plan} : ¬List.Forall₂ (Level.Parallel R) inner.levels [] ∧
      ¬List.Forall₂ (Level.Parallel R) [] inner.levels := by
    rw [Plan.levels_eq]
    exact ⟨nofun, nofun⟩
  induction p generalizing q output with
  | only l =>
    cases q with
    | only m => exact hbody (List.forall₂_cons.1 h).1 output []
    | within m inner => exact absurd (List.forall₂_cons.1 h).2 (hends (l := m)).2
  | within l inner ih =>
    cases q with
    | only m => exact absurd (List.forall₂_cons.1 h).2 (hends (l := l)).1
    | within m inner' =>
      obtain ⟨hlm, hrest⟩ := List.forall₂_cons.1 h
      have hwithin (l : Level) (inner : Plan) : (Plan.within l inner).selectSql output =
        Plan.selectSql.body output l
          ["tracks.id IN (".toList ++ inner.selectSql "tracks.id" ++ [')']] := rfl
      rw [hwithin, hwithin, ih hrest, hbody hlm]

end Text

section Params

/-- Things that `S` relates have as many operands, and have the same ones just if `T` relates
them. -/
def Tells {α : Type} (S T : α → α → Prop) (f : α → List Text) : Prop :=
  ∀ a b, S a b → (f a).length = (f b).length ∧ (f a = f b ↔ T a b)

theorem append_eq_append_iff_of_length {as bs cs ds : List Text} (h : as.length = bs.length) :
    as ++ cs = bs ++ ds ↔ as = bs ∧ cs = ds :=
  ⟨fun he => List.append_inj he h, fun ⟨hab, hcd⟩ => hab ▸ hcd ▸ rfl⟩

theorem Tells.flatMap {α : Type} {S T : α → α → Prop} {f : α → List Text} (h : Tells S T f) :
    Tells (List.Forall₂ S) (List.Forall₂ T) (List.flatMap f) := by
  intro as bs hall
  induction hall with
  | nil => exact ⟨rfl, fun _ => .nil, fun _ => rfl⟩
  | @cons a b as bs hab _ ih =>
    obtain ⟨hlen, hone⟩ := h a b hab
    rw [List.flatMap_cons, List.flatMap_cons, List.length_append, List.length_append,
      append_eq_append_iff_of_length hlen, List.forall₂_cons, hone, ih.2]
    exact ⟨congrArg₂ (· + ·) hlen ih.1, Iff.rfl⟩

theorem tells_patterns : Tells (List.Forall₂ Pattern.Any) (List.Forall₂ Pattern.SameLike)
    (List.map Pattern.like) := by
  have hone : Tells Pattern.Any Pattern.SameLike fun p => [p.like] :=
    fun p q _ => ⟨rfl, List.singleton_inj⟩
  have hall := hone.flatMap
  rwa [← funext fun ps : List Pattern => List.map_eq_flatMap (f := Pattern.like) (l := ps)] at hall

theorem tells_filter : Tells (Filter.Parallel Pattern.Any) (Filter.Parallel Pattern.SameLike)
    Filter.params := by
  intro f g h
  obtain ⟨hlen, hone⟩ := tells_patterns _ _ h.2
  exact ⟨hlen, hone.trans ⟨fun hp => ⟨h.1, hp⟩, And.right⟩⟩

theorem tells_level : Tells (Level.Parallel Pattern.Any) (Level.Parallel Pattern.SameLike)
    (·.filters.flatMap Filter.params) := by
  intro l m h
  obtain ⟨hlen, hone⟩ := tells_filter.flatMap _ _ h.filters
  exact ⟨hlen, hone.trans ⟨fun hf => ⟨h.joins, hf⟩, Level.Parallel.filters⟩⟩

theorem tells_key : Tells (Key.Parallel Pattern.Any) (Key.Parallel Pattern.SameLike)
    Key.params := by
  intro k l h
  cases h with
  | column c => exact ⟨rfl, fun _ => .column c, fun _ => rfl⟩
  | rank c h =>
    obtain ⟨hlen, hone⟩ := tells_patterns _ _ h
    refine ⟨hlen, hone.trans ⟨.rank c, fun hk => ?_⟩⟩
    cases hk with
    | rank _ hp => exact hp

theorem tells_order : Tells (Order.Parallel Pattern.Any) (Order.Parallel Pattern.SameLike)
    Order.params := by
  intro o o' h
  cases h with
  | random => exact ⟨rfl, fun _ => .random, fun _ => rfl⟩
  | keys h =>
    obtain ⟨hlen, hone⟩ := tells_key.flatMap _ _ h
    refine ⟨hlen, hone.trans ⟨.keys, fun ho => ?_⟩⟩
    cases ho with
    | keys hk => exact hk

end Params

namespace Plan

theorem SameShape.sql_eq {p q : Plan} (h : p.SameShape q) : p.sql = q.sql := by
  have hlevels := h.levels
  rw [levels_eq p, levels_eq q] at hlevels
  rw [sql, sql, selectSql_eq h.levels, (List.forall₂_cons.1 hlevels).1.joins, h.order.sql_eq]

theorem SameShape.params_eq_iff {p q : Plan} (h : p.SameShape q) :
    p.statement.params = q.statement.params ↔ p.SameOperands q := by
  obtain ⟨hlen, hlevels⟩ := tells_level.flatMap _ _ h.levels
  obtain ⟨-, horder⟩ := tells_order _ _ h.order
  rw [statement, statement, selectParams, selectParams, append_eq_append_iff_of_length hlen,
    hlevels, horder]
  exact ⟨fun hpq => ⟨hpq.1, hpq.2⟩, fun hpq => ⟨hpq.levels, hpq.order⟩⟩

/-- The statement of a plan has a placeholder for each parameter. The parameters are the operands of
the patterns that the placeholders stand for: those of the outermost filters, then those of the
filters further in, and last those of the order. Two statements have the same text just if their
plans are of the same shape, and then the same parameters just if their patterns have the same
operands. -/
theorem statement_determines_shape (p q : Plan) :
    p.statement.params = p.comparisons.map (·.2.like) ∧ Asks p.statement.sql p.comparisons ∧
      p.statement.sql.count '?' = p.statement.params.length ∧
      (p.Filled → q.Filled → (p.statement.sql = q.statement.sql ↔ p.SameShape q)) ∧
      (p.SameShape q → p.statement.sql = q.statement.sql ∧
        (p.statement.params = q.statement.params ↔ p.SameOperands q)) := by
  refine ⟨p.params_eq, p.asks_sql, ?_, fun hp hq => ⟨sameShape_of_sql hp hq, SameShape.sql_eq⟩,
    fun h => ⟨h.sql_eq, h.params_eq_iff⟩⟩
  rw [p.params_eq, List.length_map]
  exact p.asks_sql.count

theorem statement_determines_shape_narrowed :
    let plan (a b : String) : Plan :=
      .within ⟨[.albums], [⟨.album, [.ofText a.toList, .ofText b.toList]⟩],
        .keys [.rank .album [.ofText a.toList], .column .title]⟩
        (.only ⟨[], [⟨.title, [.ofText b.toList]⟩], .keys []⟩)
    let p := plan "a" "b"
    let q := plan "?" "')"
    p.Filled ∧ q.Filled ∧ p.SameShape q ∧ p.statement.sql = q.statement.sql ∧
      ¬p.SameOperands q := by
  intro plan p q
  have hfilled (a b : String) : (plan a b).Filled :=
    ⟨by simp [plan, levels, Level.Filled], by simp [plan, top, Order.Filled, Key.Filled]⟩
  have hshape : p.SameShape q := by
    refine ⟨.cons ⟨rfl, .cons ⟨rfl, ?_⟩ .nil⟩ (.cons ⟨rfl, .cons ⟨rfl, ?_⟩ .nil⟩ .nil),
      .keys (.cons (.rank _ ?_) (.cons (.column _) .nil))⟩ <;> exact forall₂_true rfl
  obtain ⟨-, -, -, hsql, hparams⟩ := statement_determines_shape p q
  have hdiffer : p.statement.params ≠ q.statement.params := by decide
  exact ⟨hfilled _ _, hfilled _ _, (hsql (hfilled _ _) (hfilled _ _)).1 (hparams hshape).1,
    (hparams hshape).1, fun h => hdiffer ((hparams hshape).2.2 h)⟩

theorem filled_of_closed {p : Plan} (h : ∀ l ∈ p.levels, l.Closed) : p.Filled := by
  refine ⟨fun l hl f hf => ((h l hl).filters f hf).2, ?_⟩
  have horder := (h p.top p.top_mem_levels).order
  cases ho : p.top.order with
  | random => trivial
  | keys ks =>
    rw [ho, Order.sound, List.all_eq_true] at horder
    intro k hk
    cases k with
    | column c => trivial
    | rank c ps => simpa [Key.sound, Key.Filled] using (Bool.and_eq_true_iff.1 (horder _ hk)).2

end Plan

/-- So the text of a statement that is run tells the shape of its plan. -/
theorem Query.filled_of_mem_plans {q : Query} (hq : q.WellFormed) {p : Plan} (hp : p ∈ q.plans) :
    p.Filled := Plan.filled_of_closed (closed_plans hq hp)

end Jukebox
