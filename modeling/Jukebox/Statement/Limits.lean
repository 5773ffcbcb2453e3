import Jukebox.Plan.Sound
import Jukebox.Statement

/-!
Which plans have a statement that the database takes. Besides being sound, a plan must not be too
large: the conditions of a statement are a tree of limited depth, to which the conditions of the
selections around it count, and parameters and sort keys are limited in number.
-/

set_option autoImplicit false

namespace Jukebox

inductive StatementError where
  | unsound
  | tooDeep
  | tooManyParameters (sql : Text) (place : Nat)
  | tooManyKeys
  | operandTooLong
  deriving DecidableEq, Repr

def StatementError.message : StatementError → Text
  | .unsound => "invalid statement".toList
  | .tooDeep => "Expression tree is too large (maximum depth 1000)".toList
  | .tooManyParameters sql place =>
    "too many SQL variables in ".toList ++ sql ++ " at offset ".toList ++ Text.ofNat place
  | .tooManyKeys => "too many terms in ORDER BY clause".toList
  | .operandTooLong => "LIKE or GLOB pattern too complex".toList

def chainDepth : List Nat → Nat
  | [] => 0
  | d :: ds => ds.foldl (fun depth d => max depth d + 1) d

/-- A comparison with a pattern is three deep, and each further pattern lies one deeper. -/
def Filter.depth (f : Filter) : Nat := f.patterns.length + 2

/-- The equations that a join adds to the conditions, two of depth three. -/
def Level.joinDepths (l : Level) : List Nat := l.joins.flatMap fun _ => [3, 3]

namespace Plan

/-- The depth of the conditions after `WHERE`. The identifiers before and in a selection in them
are two deep. -/
def depth : Plan → Nat
  | .only l => chainDepth (l.filters.map Filter.depth)
  | .within l inner => chainDepth (l.filters.map Filter.depth ++ [max 2 inner.depth + 1])

def joinedDepth (p : Plan) : Nat :=
  chainDepth ([p.depth].filter (· ≠ 0) ++ p.top.joinDepths)

def totalDepth : Plan → Nat
  | .only l => max 2 (joinedDepth (.only l))
  | .within l inner => joinedDepth (.within l inner) + inner.totalDepth

def maxDepth : Nat := 1000

def maxParameters : Nat := 32766

def maxKeys : Nat := 2000

def keyCount (p : Plan) : Nat :=
  match p.top.order with
  | .random => 0
  | .keys ks => ks.length

def placeholderAfter : Nat → Text → Nat
  | _, [] => 0
  | 0, c :: t => if c = '?' then 0 else placeholderAfter 0 t + 1
  | n + 1, c :: t => (if c = '?' then placeholderAfter n t else placeholderAfter (n + 1) t) + 1

/-- Why the database refuses the statement of the plan, if it does. Depth is looked at when the
statement is read, and again when its joins are put in place. -/
def refusal? (p : Plan) : Option StatementError :=
  if !p.sound then some .unsound
  else if maxDepth < p.depth then some .tooDeep
  else if maxParameters < p.statement.params.length then
    some (.tooManyParameters p.sql (placeholderAfter maxParameters p.sql))
  else if maxDepth < p.totalDepth then some .tooDeep
  else if maxKeys < p.keyCount then some .tooManyKeys
  else none

end Plan

end Jukebox
