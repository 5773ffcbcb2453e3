import Mathlib.Data.Nat.Digits.Defs
import Jukebox.Proofs.Plan.Parallel
import Jukebox.Statement

set_option autoImplicit false

namespace Jukebox

/-- A text with a placeholder for each of the comparisons in turn. -/
inductive Asks : Text → List (Column × Pattern) → Prop where
  | nil {t : Text} (h : '?' ∉ t) : Asks t []
  | cons {front t : Text} {c : Column} (p : Pattern) {cs : List (Column × Pattern)}
    (h : '?' ∉ front) (rest : Asks t cs) :
    Asks (front ++ (c.sql ++ " LIKE ").toList ++ '?' :: t) ((c, p) :: cs)

namespace Asks

theorem append {s t : Text} {cs ds : List (Column × Pattern)} (hs : Asks s cs) (ht : Asks t ds) :
    Asks (s ++ t) (cs ++ ds) := by
  induction hs with
  | nil h =>
    cases ht with
    | nil h' => exact .nil (by simp [h, h'])
    | cons p h' rest =>
      rw [← List.append_assoc, ← List.append_assoc]
      exact .cons p (by simp [h, h']) rest
  | cons p h _ ih =>
    rw [List.append_assoc, List.cons_append]
    exact .cons p h ih

theorem before {s t : Text} {cs : List (Column × Pattern)} (hs : '?' ∉ s) (ht : Asks t cs) :
    Asks (s ++ t) cs := (nil hs).append ht

theorem behind {s t : Text} {cs : List (Column × Pattern)} (hs : Asks s cs) (ht : '?' ∉ t) :
    Asks (s ++ t) cs := by
  simpa using hs.append (nil ht)

theorem count {t : Text} {cs : List (Column × Pattern)} (h : Asks t cs) :
    t.count '?' = cs.length := by
  induction h with
  | nil h => exact List.count_eq_zero_of_not_mem h
  | @cons front t c p cs h _ ih =>
    have hcolumn : (c.sql ++ " LIKE ").toList.count '?' = 0 := by cases c <;> decide
    rw [List.count_append, List.count_append, List.count_eq_zero_of_not_mem h, hcolumn,
      List.count_cons_self, ih, List.length_cons]
    omega

theorem join (sep : String) (hsep : '?' ∉ sep.toList) {ts : List Text}
    {css : List (List (Column × Pattern))} (h : List.Forall₂ Asks ts css) :
    Asks (Text.join sep ts) css.flatten := by
  induction h with
  | nil => exact nil List.not_mem_nil
  | @cons t cs ts css ht hts ih =>
    cases hts with
    | nil => simpa [Text.join] using ht
    | cons ht' hts =>
      rw [Text.join, List.intercalate_cons_cons, List.flatten_cons]
      exact (ht.behind hsep).append ih

theorem each {α : Type} {f : α → Text} {g : α → List (Column × Pattern)} (h : ∀ a, Asks (f a) (g a))
    (as : List α) : List.Forall₂ Asks (as.map f) (as.map g) := by
  rw [List.forall₂_map_left_iff, List.forall₂_map_right_iff, List.forall₂_same]
  exact fun a _ => h a

theorem likeSql (c : Column) (p : Pattern) : Asks c.likeSql [(c, p)] := by
  have hsplit : c.likeSql = [] ++ (c.sql ++ " LIKE ").toList ++ '?' :: " ESCAPE '\\'".toList := by
    cases c <;> decide
  rw [hsplit]
  exact .cons p List.not_mem_nil (.nil (by decide))

theorem filter (f : Filter) : Asks f.sql f.comparisons := by
  have hpatterns := join " OR " (by decide) (each (likeSql f.column) f.patterns)
  rw [← List.flatMap_def, ← List.map_eq_flatMap] at hpatterns
  exact (before (s := ['(']) (by decide) hpatterns).behind (t := [')']) (by decide)

theorem not_mem_ofNat (n : Nat) : '?' ∉ Text.ofNat n := fun h =>
  absurd (Nat.isDigit_of_mem_toDigits (by decide) (by decide) h) (by decide)

theorem arms (c : Column) (n : Nat) (ps : List Pattern) :
    Asks (Key.armsSql c n ps) (ps.map (c, ·)) := by
  induction ps generalizing n with
  | nil => exact nil List.not_mem_nil
  | cons p ps ih =>
    have hfront := (before (s := " WHEN ".toList) (by decide) (likeSql c p)).behind
      (t := " THEN ".toList) (by decide)
    exact (hfront.behind (not_mem_ofNat n)).append (ih (n + 1))

theorem key (k : Key) : Asks k.sql k.comparisons := by
  cases k with
  | column c => exact nil (by cases c <;> decide)
  | rank c ps =>
    have hfront := (before (s := "CASE".toList) (by decide) (arms c 0 ps)).behind
      (t := " ELSE ".toList) (by decide)
    exact (hfront.behind (not_mem_ofNat ps.length)).behind (by decide)

theorem order (grouped : Bool) (o : Order) : Asks (o.sql grouped) o.comparisons := by
  match o with
  | .random => exact nil (t := " ORDER BY random()".toList) (by decide)
  | .keys [] => exact nil List.not_mem_nil
  | .keys (k :: ks) =>
    refine before (s := " ORDER BY ".toList) (by decide)
      (join ", " (by decide) (each (fun k => ?_) _))
    cases grouped with
    | true =>
      exact (before (s := "MIN(".toList) (by decide) (key k)).behind (t := [')']) (by decide)
    | false => exact key k

theorem conditions {ts : List Text} {css : List (List (Column × Pattern))}
    (h : List.Forall₂ Asks ts css) : Asks (whereSql ts) css.flatten := by
  have hjoin := join " AND " (by decide) h
  cases h with
  | nil => exact hjoin
  | cons ht hts => exact before (s := " WHERE ".toList) (by decide) hjoin

theorem body {output : String} (hout : '?' ∉ output.toList) (l : Level) {more : List Text}
    {css : List (List (Column × Pattern))} (h : List.Forall₂ Asks more css) :
    Asks (Plan.selectSql.body output l more) (l.comparisons ++ css.flatten) := by
  have hfront : '?' ∉ ("SELECT " ++ output ++ " FROM tracks").toList := by
    rw [String.toList_append, String.toList_append]
    have hselect : '?' ∉ "SELECT ".toList := by decide
    have hfrom : '?' ∉ " FROM tracks".toList := by decide
    simp only [List.mem_append, hselect, hout, hfrom, or_self, not_false_eq_true]
  have hjoins : '?' ∉ l.joins.flatMap (·.sql.toList) := by
    intro hm
    obtain ⟨j, -, hj⟩ := List.mem_flatMap.1 hm
    exact absurd hj (by cases j <;> decide +kernel)
  have hall := conditions (List.rel_append (each filter l.filters) h)
  rw [List.flatten_append] at hall
  exact before (by simp only [List.mem_append, hfront, hjoins, or_self, not_false_eq_true]) hall

theorem select {output : String} (hout : '?' ∉ output.toList) (p : Plan) :
    Asks (p.selectSql output) (p.levels.flatMap Level.comparisons) := by
  induction p generalizing output with
  | only l => exact body hout l .nil
  | within l inner ih =>
    have hid : '?' ∉ "tracks.id".toList := by decide
    have hinner := (before (s := "tracks.id IN (".toList) (by decide) (ih hid)).behind (t := [')'])
      (by decide)
    have hall := body hout l (.cons hinner .nil)
    rwa [List.flatten_singleton] at hall

end Asks

namespace Plan

theorem asks_sql (p : Plan) : Asks p.sql p.comparisons := by
  have hgroup : '?' ∉ (if !p.top.joins.isEmpty then " GROUP BY tracks.id".toList else []) := by
    split <;> decide
  exact ((Asks.select (by decide) p).behind hgroup).append (Asks.order _ p.top.order)

theorem params_eq (p : Plan) : p.statement.params = p.comparisons.map fun c => c.2.like := by
  have hfilter (f : Filter) : f.params = f.comparisons.map fun c => c.2.like := by
    rw [Filter.params, Filter.comparisons, List.map_map]
    rfl
  have hkey (k : Key) : k.params = k.comparisons.map fun c => c.2.like := by
    cases k with
    | column c => rfl
    | rank c ps =>
      rw [Key.params, Key.comparisons, List.map_map]
      rfl
  have horder (o : Order) : o.params = o.comparisons.map fun c => c.2.like := by
    cases o with
    | random => rfl
    | keys ks =>
      rw [Order.params, Order.comparisons, List.map_flatMap]
      exact List.flatMap_congr fun k _ => hkey k
  have hlevel (l : Level) : l.filters.flatMap Filter.params =
      l.comparisons.map fun c => c.2.like := by
    rw [Level.comparisons, List.map_flatMap]
    exact List.flatMap_congr fun f _ => hfilter f
  rw [statement, selectParams, comparisons, List.map_append, List.map_flatMap, horder]
  exact congrArg (· ++ _) (List.flatMap_congr fun l _ => hlevel l)

end Plan

end Jukebox
