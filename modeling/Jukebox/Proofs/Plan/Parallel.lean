import Mathlib.Data.List.Forall2
import Jukebox.Plan

set_option autoImplicit false

namespace Jukebox

section Parallel

variable (R : Pattern → Pattern → Prop)

def Filter.Parallel (f g : Filter) : Prop :=
  f.column = g.column ∧ List.Forall₂ R f.patterns g.patterns

inductive Key.Parallel : Key → Key → Prop where
  | column (c : Column) : Key.Parallel (.column c) (.column c)
  | rank (c : Column) {ps qs : List Pattern} (h : List.Forall₂ R ps qs) :
    Key.Parallel (.rank c ps) (.rank c qs)

inductive Order.Parallel : Order → Order → Prop where
  | random : Order.Parallel .random .random
  | keys {ks ls : List Key} (h : List.Forall₂ (Key.Parallel R) ks ls) :
    Order.Parallel (.keys ks) (.keys ls)

structure Level.Parallel (l m : Level) : Prop where
  joins : l.joins = m.joins
  filters : List.Forall₂ (Filter.Parallel R) l.filters m.filters

/-- Only the order of the whole plan counts. -/
structure Plan.Parallel (p q : Plan) : Prop where
  levels : List.Forall₂ (Level.Parallel R) p.levels q.levels
  order : Order.Parallel R p.top.order q.top.order

end Parallel

abbrev Pattern.Any : Pattern → Pattern → Prop := fun _ _ => True

abbrev Pattern.SameLike : Pattern → Pattern → Prop := fun p q => p.like = q.like

def Plan.SameShape : Plan → Plan → Prop := Plan.Parallel Pattern.Any

/-- Plans whose patterns at the same places have the same operand of `LIKE`. -/
def Plan.SameOperands : Plan → Plan → Prop := Plan.Parallel Pattern.SameLike

def Key.Filled : Key → Prop
  | .column _ => True
  | .rank _ ps => ps ≠ []

def Order.Filled : Order → Prop
  | .random => True
  | .keys ks => ∀ k ∈ ks, k.Filled

def Level.Filled (l : Level) : Prop := ∀ f ∈ l.filters, f.patterns ≠ []

structure Plan.Filled (p : Plan) : Prop where
  levels : ∀ l ∈ p.levels, l.Filled
  order : p.top.order.Filled

/-! Every pattern of a plan is compared with a column. -/

def Filter.comparisons (f : Filter) : List (Column × Pattern) := f.patterns.map (f.column, ·)

def Level.comparisons (l : Level) : List (Column × Pattern) := l.filters.flatMap Filter.comparisons

def Key.comparisons : Key → List (Column × Pattern)
  | .column _ => []
  | .rank c ps => ps.map (c, ·)

def Order.comparisons : Order → List (Column × Pattern)
  | .random => []
  | .keys ks => ks.flatMap Key.comparisons

/-- The comparisons of the filters, those of inner plans after those of the plan around them, and
then the comparisons of the order. -/
def Plan.comparisons (p : Plan) : List (Column × Pattern) :=
  p.levels.flatMap Level.comparisons ++ p.top.order.comparisons

end Jukebox
