import Jukebox.Proofs.Statement.Placeholders
import Jukebox.Proofs.Text.Parts

/-!
Statements read back. Each part of a statement ends where it can be seen to end, so two plans with
the same text are of the same shape, if all their filters and rankings have patterns.
-/

set_option autoImplicit false

namespace Jukebox

theorem Column.sql_free (c d : Column) (h : c.sql.toList <+: d.sql.toList) : c = d := by
  revert h
  cases c <;> cases d <;> decide

theorem Column.likeSql_free (c d : Column) (h : c.likeSql <+: d.likeSql) : c = d := by
  revert h
  cases c <;> cases d <;> decide

theorem Join.sql_free (i j : Join) (h : i.sql.toList <+: j.sql.toList) : i = j := by
  revert h
  cases i <;> cases j <;> decide +kernel

theorem forall₂_true {α : Type} {as bs : List α} (h : as.length = bs.length) :
    List.Forall₂ (fun _ _ => True) as bs :=
  List.forall₂_iff_get.2 ⟨h, fun _ _ _ => trivial⟩

/-! The text of each part, as it is read. -/

theorem Filter.sql_append (f : Filter) (s : Text) : f.sql ++ s =
    ['('] ++ (Text.join " OR " (f.patterns.map fun _ => f.column.likeSql) ++ ([')'] ++ s)) := by
  rw [sql, List.append_assoc, List.append_assoc]

theorem Key.armsSql_append (c : Column) (n : Nat) (p : Pattern) (ps : List Pattern) (s : Text) :
    armsSql c n (p :: ps) ++ s = " WHEN ".toList ++
      (c.likeSql ++ (" THEN ".toList ++ (Text.ofNat n ++ (armsSql c (n + 1) ps ++ s)))) := by
  have hcons : armsSql c n (p :: ps) = " WHEN ".toList ++ c.likeSql ++ " THEN ".toList ++
      Text.ofNat n ++ armsSql c (n + 1) ps := rfl
  rw [hcons, List.append_assoc, List.append_assoc, List.append_assoc, List.append_assoc]

theorem Key.rank_sql_append (c : Column) (ps : List Pattern) (s : Text) :
    (rank c ps).sql ++ s = "CASE".toList ++ (armsSql c 0 ps ++
      (" ELSE ".toList ++ (Text.ofNat ps.length ++ (" END".toList ++ s)))) := by
  have hrank : (rank c ps).sql = "CASE".toList ++ armsSql c 0 ps ++ " ELSE ".toList ++
      Text.ofNat ps.length ++ " END".toList := rfl
  rw [hrank, List.append_assoc, List.append_assoc, List.append_assoc, List.append_assoc]

def Key.sortSql (grouped : Bool) (k : Key) : Text :=
  if grouped then "MIN(".toList ++ k.sql ++ [')'] else k.sql

theorem Key.least_sql_append (k : Key) (s : Text) :
    k.sortSql true ++ s = "MIN(".toList ++ (k.sql ++ ([')'] ++ s)) := by
  rw [sortSql, if_pos rfl, List.append_assoc, List.append_assoc]

section Parts

variable {s t : Text}

theorem filter_cancel {f g : Filter} (hf : f.patterns ≠ []) (hg : g.patterns ≠ [])
    (h : f.sql ++ s = g.sql ++ t) : f.Parallel Pattern.Any g ∧ s = t := by
  obtain ⟨c, ps⟩ := f
  obtain ⟨d, qs⟩ := g
  obtain ⟨p, ps, rfl⟩ := List.exists_cons_of_ne_nil hf
  obtain ⟨q, qs, rfl⟩ := List.exists_cons_of_ne_nil hg
  rw [Filter.sql_append, Filter.sql_append] at h
  have hpatterns := List.append_cancel_left h
  have hcd : c = d := by
    rw [List.map_cons, List.map_cons, join_cons, join_cons, List.append_assoc,
      List.append_assoc] at hpatterns
    exact (code_cancel Column.likeSql_free hpatterns).1
  subst hcd
  have hstop : Apart " OR ".toList [')'] := by decide
  obtain ⟨hall, he⟩ := join_cancel (R := Pattern.Any)
    (fun _ _ _ _ s t he => ⟨trivial, List.append_cancel_left he⟩) (hstop.not_prefix s)
    (hstop.not_prefix t) hpatterns
  exact ⟨⟨rfl, hall⟩, List.append_cancel_left he⟩

theorem arms_cancel {c d : Column} {n : Nat} {ps qs : List Pattern}
    (h : Key.armsSql c n ps ++ (" ELSE ".toList ++ s) =
      Key.armsSql d n qs ++ (" ELSE ".toList ++ t)) :
    ps.length = qs.length ∧ (ps ≠ [] → c = d) ∧ s = t := by
  have hapart : Apart " ELSE ".toList " WHEN ".toList := by decide
  induction ps generalizing qs n with
  | nil =>
    cases qs with
    | nil =>
      have hrest : " ELSE ".toList ++ s = " ELSE ".toList ++ t := h
      exact ⟨rfl, fun hne => absurd rfl hne, List.append_cancel_left hrest⟩
    | cons q qs =>
      rw [Key.armsSql_append] at h
      exact absurd h (hapart.append_ne _ _)
  | cons p ps ih =>
    cases qs with
    | nil =>
      rw [Key.armsSql_append] at h
      exact absurd h.symm (hapart.append_ne _ _)
    | cons q qs =>
      rw [Key.armsSql_append, Key.armsSql_append] at h
      obtain ⟨hcd, hrest⟩ := code_cancel Column.likeSql_free (List.append_cancel_left h)
      obtain ⟨hlen, -, he⟩ := ih (List.append_cancel_left (List.append_cancel_left hrest))
      exact ⟨congrArg (· + 1) hlen, fun _ => hcd, he⟩

theorem key_cancel {k l : Key} (hk : k.Filled) (hl : l.Filled) (h : k.sql ++ s = l.sql ++ t) :
    k.Parallel Pattern.Any l ∧ s = t := by
  have hapart (c : Column) : Apart c.sql.toList "CASE".toList := by cases c <;> decide
  cases k with
  | column c =>
    cases l with
    | column d =>
      obtain ⟨rfl, he⟩ := code_cancel (f := fun c : Column => c.sql.toList) Column.sql_free h
      exact ⟨.column c, he⟩
    | rank d qs =>
      rw [Key.rank_sql_append] at h
      exact absurd h ((hapart c).append_ne _ _)
  | rank c ps =>
    cases l with
    | column d =>
      rw [Key.rank_sql_append] at h
      exact absurd h.symm ((hapart d).append_ne _ _)
    | rank d qs =>
      rw [Key.rank_sql_append, Key.rank_sql_append] at h
      obtain ⟨hlen, hcd, he⟩ := arms_cancel (List.append_cancel_left h)
      obtain rfl := hcd hk
      rw [hlen] at he
      exact ⟨.rank c (forall₂_true hlen), List.append_cancel_left (List.append_cancel_left he)⟩

theorem sortSql_cancel {grouped : Bool} {k l : Key} (hk : k.Filled) (hl : l.Filled)
    (h : k.sortSql grouped ++ s = l.sortSql grouped ++ t) :
    k.Parallel Pattern.Any l ∧ s = t := by
  cases grouped with
  | false => exact key_cancel hk hl h
  | true =>
    rw [Key.least_sql_append, Key.least_sql_append] at h
    obtain ⟨hkl, he⟩ := key_cancel hk hl (List.append_cancel_left h)
    exact ⟨hkl, List.append_cancel_left he⟩

theorem sortSql_ne_random (grouped : Bool) (k : Key) (s : Text) :
    k.sortSql grouped ++ s ≠ "random()".toList := by
  have hcolumn (c : Column) : Apart c.sql.toList "random()".toList := by cases c <;> decide
  have hcase : Apart "CASE".toList "random()".toList := by decide
  have hleast : Apart "MIN(".toList "random()".toList := by decide
  intro h
  match grouped, k with
  | true, k => exact hleast.1 ⟨_, (k.least_sql_append s).symm.trans h⟩
  | false, .column c => exact (hcolumn c).1 ⟨_, h⟩
  | false, .rank c ps => exact hcase.1 ⟨_, (Key.rank_sql_append c ps s).symm.trans h⟩

theorem order_cancel {grouped : Bool} {o o' : Order} (ho : o.Filled) (ho' : o'.Filled)
    (h : o.sql grouped = o'.sql grouped) : o.Parallel Pattern.Any o' := by
  have hrandom : Order.random.sql grouped = " ORDER BY ".toList ++ "random()".toList := rfl
  have hkeys (k : Key) (ks : List Key) : (Order.keys (k :: ks)).sql grouped =
      " ORDER BY ".toList ++ Text.join ", " ((k :: ks).map (Key.sortSql grouped)) := rfl
  have hnone : (Order.keys []).sql grouped = [] := rfl
  have hne (t : Text) : " ORDER BY ".toList ++ t ≠ [] :=
    List.append_ne_nil_of_left_ne_nil (by decide) t
  have hother (k : Key) (ks : List Key) :
      Text.join ", " ((k :: ks).map (Key.sortSql grouped)) ≠ "random()".toList := by
    rw [List.map_cons, join_cons]
    exact sortSql_ne_random grouped k _
  match o, o' with
  | .random, .random => exact .random
  | .keys [], .keys [] => exact .keys .nil
  | .random, .keys [] =>
    rw [hrandom, hnone] at h
    exact absurd h (hne _)
  | .keys [], .random =>
    rw [hrandom, hnone] at h
    exact absurd h.symm (hne _)
  | .keys [], .keys (k :: ks) =>
    rw [hkeys, hnone] at h
    exact absurd h.symm (hne _)
  | .keys (k :: ks), .keys [] =>
    rw [hkeys, hnone] at h
    exact absurd h (hne _)
  | .random, .keys (k :: ks) =>
    rw [hrandom, hkeys] at h
    exact absurd (List.append_cancel_left h).symm (hother k ks)
  | .keys (k :: ks), .random =>
    rw [hrandom, hkeys] at h
    exact absurd (List.append_cancel_left h) (hother k ks)
  | .keys (k :: ks), .keys (l :: ls) =>
    rw [hkeys, hkeys] at h
    have hjoin := List.append_cancel_left h
    rw [← List.append_nil (Text.join _ _),
      ← List.append_nil (Text.join ", " (List.map _ (l :: ls)))] at hjoin
    have hstop : ¬", ".toList <+: [] := by decide
    exact .keys (join_cancel (fun k hk l hl _ _ => sortSql_cancel (ho k hk) (ho' l hl)) hstop hstop
      hjoin).1

end Parts

/-! A selection as a list of conditions: its filters, and the inner plan if there is one. -/

def conditionSql : Filter ⊕ Plan → Text
  | .inl f => f.sql
  | .inr p => "tracks.id IN (".toList ++ p.selectSql "tracks.id" ++ [')']

def Plan.conditions (p : Plan) : List (Filter ⊕ Plan) :=
  p.top.filters.map .inl ++ p.inner?.toList.map .inr

theorem Plan.selectSql_append (output : String) (p : Plan) (s : Text) :
    p.selectSql output ++ s = ("SELECT " ++ output ++ " FROM tracks").toList ++
      (p.top.joins.flatMap (·.sql.toList) ++ (whereSql (p.conditions.map conditionSql) ++ s)) := by
  have hconditions : p.conditions.map conditionSql = p.top.filters.map Filter.sql ++
      p.inner?.toList.map fun p => "tracks.id IN (".toList ++ p.selectSql "tracks.id" ++ [')'] := by
    rw [conditions, List.map_append, List.map_map, List.map_map]
    rfl
  rw [hconditions, ← List.append_assoc, ← List.append_assoc]
  cases p <;> rfl

section Selection

abbrev SelectAlike (p q : Plan) : Prop :=
  List.Forall₂ (Level.Parallel Pattern.Any) p.levels q.levels

/-- What a text does not start with that follows a selection. -/
structure SelectEnds (s : Text) : Prop where
  join : ¬" JOIN ".toList <+: s
  first : ¬" WHERE ".toList <+: s
  next : ¬" AND ".toList <+: s

theorem selectEnds_nil : SelectEnds [] := ⟨by decide, by decide, by decide⟩

theorem selectEnds_append {s : Text} (hjoin : Apart " JOIN ".toList s)
    (hfirst : Apart " WHERE ".toList s) (hnext : Apart " AND ".toList s) (t : Text) :
    SelectEnds (s ++ t) :=
  ⟨hjoin.not_prefix t, hfirst.not_prefix t, hnext.not_prefix t⟩

theorem selectEnds_order (grouped : Bool) (o : Order) :
    SelectEnds ((if grouped then " GROUP BY tracks.id".toList else []) ++ o.sql grouped) := by
  have hby (t : Text) : SelectEnds (" ORDER BY ".toList ++ t) :=
    selectEnds_append (by decide) (by decide) (by decide) t
  match grouped, o with
  | true, o => exact selectEnds_append (by decide) (by decide) (by decide) _
  | false, .keys [] => exact selectEnds_nil
  | false, .keys (k :: ks) => exact hby _
  | false, .random => exact hby "random()".toList

theorem selectEnds_close (s : Text) : SelectEnds ([')'] ++ s) :=
  selectEnds_append (by decide) (by decide) (by decide) s

variable {s t : Text} (hs : SelectEnds s) (ht : SelectEnds t)
include hs ht

theorem whereSql_cancel {α : Type} {R : α → α → Prop} {f : α → Text} {as bs : List α}
    (hone : ∀ a ∈ as, ∀ b ∈ bs, ∀ s t, f a ++ s = f b ++ t → R a b ∧ s = t)
    (h : whereSql (as.map f) ++ s = whereSql (bs.map f) ++ t) : List.Forall₂ R as bs ∧ s = t := by
  have hcons (a : α) (as : List α) (u : Text) : whereSql ((a :: as).map f) ++ u =
      " WHERE ".toList ++ (Text.join " AND " ((a :: as).map f) ++ u) := List.append_assoc _ _ _
  match as, bs with
  | [], [] => exact ⟨.nil, h⟩
  | [], b :: bs =>
    rw [hcons] at h
    exact absurd ⟨_, h.symm⟩ hs.first
  | a :: as, [] =>
    rw [hcons] at h
    exact absurd ⟨_, h⟩ ht.first
  | a :: as, b :: bs =>
    rw [hcons, hcons] at h
    exact join_cancel hone hs.next ht.next (List.append_cancel_left h)

theorem joins_cancel {js ks : List Join} {cs ds : List Text}
    (h : js.flatMap (·.sql.toList) ++ (whereSql cs ++ s) =
      ks.flatMap (·.sql.toList) ++ (whereSql ds ++ t)) :
    js = ks ∧ whereSql cs ++ s = whereSql ds ++ t := by
  have hjoin (j : Join) : " JOIN ".toList <+: j.sql.toList := by cases j <;> decide
  have hapart : Apart " JOIN ".toList " WHERE ".toList := by decide
  have hstop {u : Text} (hu : SelectEnds u) (cs : List Text) (j : Join) :
      ¬j.sql.toList <+: whereSql cs ++ u := by
    intro hj
    cases cs with
    | nil => exact hu.join ((hjoin j).trans hj)
    | cons c cs =>
      have hwhere : whereSql (c :: cs) ++ u =
          " WHERE ".toList ++ (Text.join " AND " (c :: cs) ++ u) :=
        List.append_assoc _ _ _
      rw [hwhere] at hj
      exact hapart.not_prefix _ ((hjoin j).trans hj)
  obtain ⟨hall, he⟩ := flatMap_cancel (R := Eq)
    (fun j _ k _ _ _ => code_cancel (f := fun j : Join => j.sql.toList) Join.sql_free)
    (fun k _ => hstop hs cs k) (fun j _ => hstop ht ds j) h
  exact ⟨List.forall₂_eq_eq_eq ▸ hall, he⟩

end Selection

/-- Whether the selection of a plan is read off a text in one way. -/
def Plan.Readable (p : Plan) : Prop :=
  ∀ (q : Plan) (output : String) (s t : Text), (∀ l ∈ p.levels, l.Filled) →
    (∀ l ∈ q.levels, l.Filled) → SelectEnds s → SelectEnds t →
    p.selectSql output ++ s = q.selectSql output ++ t → SelectAlike p q ∧ s = t

def ConditionFilled : Filter ⊕ Plan → Prop
  | .inl f => f.patterns ≠ []
  | .inr p => ∀ l ∈ p.levels, l.Filled

theorem condition_cancel {a b : Filter ⊕ Plan} (ha : ConditionFilled a) (hb : ConditionFilled b)
    (hinner : ∀ p, a = .inr p → p.Readable) {s t : Text}
    (h : conditionSql a ++ s = conditionSql b ++ t) :
    Sum.LiftRel (Filter.Parallel Pattern.Any) SelectAlike a b ∧ s = t := by
  have hapart : Apart ['('] "tracks.id IN (".toList := by decide
  have hplan (p : Plan) (u : Text) : conditionSql (.inr p) ++ u =
      "tracks.id IN (".toList ++ (p.selectSql "tracks.id" ++ ([')'] ++ u)) := by
    have hsql : conditionSql (.inr p) =
        "tracks.id IN (".toList ++ p.selectSql "tracks.id" ++ [')'] := rfl
    rw [hsql, List.append_assoc, List.append_assoc]
  match a, b with
  | .inl f, .inl g =>
    obtain ⟨hfg, he⟩ := filter_cancel ha hb h
    exact ⟨.inl hfg, he⟩
  | .inl f, .inr q =>
    rw [hplan] at h
    exact absurd ((f.sql_append s).symm.trans h) (hapart.append_ne _ _)
  | .inr p, .inl g =>
    rw [hplan] at h
    exact absurd ((g.sql_append t).symm.trans h.symm) (hapart.append_ne _ _)
  | .inr p, .inr q =>
    rw [hplan, hplan] at h
    obtain ⟨hpq, he⟩ := hinner p rfl q _ _ _ ha hb (selectEnds_close s) (selectEnds_close t)
      (List.append_cancel_left h)
    exact ⟨.inr hpq, List.append_cancel_left he⟩

namespace Plan

theorem levels_eq (p : Plan) : p.levels = p.top :: p.inner?.toList.flatMap levels := by
  cases p with
  | only l => rfl
  | within l inner => rw [levels, inner?, Option.toList_some, List.flatMap_singleton]; rfl

theorem conditionFilled_of_mem {p : Plan} (hp : ∀ l ∈ p.levels, l.Filled) {a : Filter ⊕ Plan}
    (ha : a ∈ p.conditions) : ConditionFilled a := by
  rw [levels_eq] at hp
  rcases List.mem_append.1 ha with ha | ha
  · obtain ⟨f, hf, rfl⟩ := List.mem_map.1 ha
    exact hp p.top List.mem_cons_self f hf
  · obtain ⟨inner, hi, rfl⟩ := List.mem_map.1 ha
    exact fun l hl => hp l (List.mem_cons_of_mem _ (List.mem_flatMap.2 ⟨inner, hi, hl⟩))

theorem alike_of_conditions {p q : Plan} (hjoins : p.top.joins = q.top.joins)
    (h : List.Forall₂ (Sum.LiftRel (Filter.Parallel Pattern.Any) SelectAlike) p.conditions
      q.conditions) : SelectAlike p q := by
  have hsplit (fs gs : List Filter) (ps qs : List Plan)
      (h : List.Forall₂ (Sum.LiftRel (Filter.Parallel Pattern.Any) SelectAlike)
        (fs.map .inl ++ ps.map .inr) (gs.map .inl ++ qs.map .inr)) :
      List.Forall₂ (Filter.Parallel Pattern.Any) fs gs ∧ List.Forall₂ SelectAlike ps qs := by
    induction fs generalizing gs with
    | nil =>
      cases gs with
      | nil =>
        simp only [List.map_nil, List.nil_append, List.forall₂_map_left_iff,
          List.forall₂_map_right_iff] at h
        exact ⟨.nil, h.imp fun _ _ => Sum.liftRel_inr_inr.1⟩
      | cons g gs =>
        cases ps with
        | nil => cases h
        | cons p ps =>
          cases h with
          | cons hpg _ => cases hpg
    | cons f fs ih =>
      cases gs with
      | nil =>
        cases qs with
        | nil => cases h
        | cons q qs =>
          cases h with
          | cons hfq _ => cases hfq
      | cons g gs =>
        cases h with
        | cons hfg hrest =>
          obtain ⟨hfs, hps⟩ := ih gs hrest
          exact ⟨.cons (Sum.liftRel_inl_inl.1 hfg) hfs, hps⟩
  obtain ⟨hfilters, hinner⟩ := hsplit _ _ _ _ h
  rw [SelectAlike, levels_eq p, levels_eq q]
  refine .cons ⟨hjoins, hfilters⟩ ?_
  cases hp : p.inner? <;> cases hq : q.inner? <;> rw [hp, hq] at hinner <;> cases hinner
  · exact .nil
  · next h _ => simpa using h

theorem readable_of_inner {p : Plan} (hinner : ∀ inner, p.inner? = some inner → inner.Readable) :
    p.Readable := by
  intro q output s t hp hq hs ht h
  rw [selectSql_append, selectSql_append] at h
  obtain ⟨hjoins, hconditions⟩ := joins_cancel hs ht (List.append_cancel_left h)
  obtain ⟨hall, he⟩ := whereSql_cancel hs ht (fun a ha b hb s t he =>
    condition_cancel (conditionFilled_of_mem hp ha) (conditionFilled_of_mem hq hb)
      (fun inner hi => hinner inner (by simpa [conditions, hi] using ha)) he) hconditions
  exact ⟨alike_of_conditions hjoins hall, he⟩

theorem readable (p : Plan) : p.Readable := by
  induction p with
  | only l => exact readable_of_inner nofun
  | within l inner ih => exact readable_of_inner fun p hp => Option.some.inj hp ▸ ih

theorem sameShape_of_sql {p q : Plan} (hp : p.Filled) (hq : q.Filled) (h : p.sql = q.sql) :
    p.SameShape q := by
  have hsql (r : Plan) : r.sql = r.selectSql "tracks.path" ++
      ((if !r.top.joins.isEmpty then " GROUP BY tracks.id".toList else []) ++
        r.top.order.sql (!r.top.joins.isEmpty)) := List.append_assoc _ _ _
  rw [hsql, hsql] at h
  obtain ⟨hlevels, horder⟩ := p.readable q _ _ _ hp.levels hq.levels (selectEnds_order _ _)
    (selectEnds_order _ _) h
  have hjoins : p.top.joins = q.top.joins := by
    have hall := hlevels
    rw [SelectAlike, levels_eq p, levels_eq q, List.forall₂_cons] at hall
    exact hall.1.joins
  rw [hjoins] at horder
  exact ⟨hlevels, order_cancel hp.order hq.order (List.append_cancel_left horder)⟩

end Plan

end Jukebox
