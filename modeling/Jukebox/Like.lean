import Jukebox.Text.Basic

/-!
The `LIKE` operator: `%` stands for any run of characters, `_` for any one character, and a
backslash makes the character after it stand for itself. ASCII letters match in either case.
-/

set_option autoImplicit false

namespace Jukebox.Like

inductive Item where
  | run
  | one
  | char (c : Char)
  /-- A backslash with nothing after it, which nothing matches. -/
  | never
  deriving DecidableEq, Repr

def items : Text → List Item
  | [] => []
  | '%' :: cs => .run :: items cs
  | '_' :: cs => .one :: items cs
  | '\\' :: c :: cs => .char c :: items cs
  | ['\\'] => [.never]
  | c :: cs => .char c :: items cs

def anyEnd (p : Text → Bool) : Text → Bool
  | [] => p []
  | c :: cs => p (c :: cs) || anyEnd p cs

theorem anyEnd_iff {p : Text → Bool} {v : Text} : anyEnd p v ↔ ∃ g w, v = g ++ w ∧ p w := by
  induction v with
  | nil =>
    constructor
    · exact fun h => ⟨[], [], rfl, h⟩
    · rintro ⟨g, w, h, hw⟩
      obtain ⟨rfl, rfl⟩ := List.nil_eq_append_iff.1 h
      exact hw
  | cons c cs ih =>
    simp only [anyEnd, Bool.or_eq_true, ih]
    constructor
    · rintro (h | ⟨g, w, rfl, hw⟩)
      · exact ⟨[], c :: cs, rfl, h⟩
      · exact ⟨c :: g, w, rfl, hw⟩
    · rintro ⟨_ | ⟨d, g⟩, w, h, hw⟩
      · exact .inl (by simpa [h] using hw)
      · obtain ⟨rfl, rfl⟩ := List.cons.inj h
        exact .inr ⟨g, w, rfl, hw⟩

def accepts : List Item → Text → Bool
  | [], v => v.isEmpty
  | .run :: is, v => anyEnd (accepts is) v
  | .one :: _, [] => false
  | .one :: is, _ :: v => accepts is v
  | .char _ :: _, [] => false
  | .char c :: is, d :: v => c.toLower == d.toLower && accepts is v
  | .never :: _, _ => false

def emptyRow : List Item → List Bool
  | [] => [true]
  | i :: is => (i == .run && (emptyRow is).headD false) :: emptyRow is

/-- Which ends of the items accept a value that starts with `d`, given those that accept the rest
of the value. -/
def nextRow (d : Char) : List Item → List Bool → List Bool
  | [], _ => [false]
  | i :: is, rest =>
    let row := nextRow d is rest.tail
    let first := match i with
      | .run => row.headD false || rest.headD false
      | .one => rest.tail.headD false
      | .char c => c.toLower == d.toLower && rest.tail.headD false
      | .never => false
    first :: row

def row (is : List Item) (v : Text) : List Bool := v.foldr (fun d => nextRow d is) (emptyRow is)

theorem tail_row (i : Item) (is : List Item) (v : Text) : (row (i :: is) v).tail = row is v := by
  induction v with
  | nil => rfl
  | cons d v ih => exact congrArg (nextRow d is) ih

/-- The table is filled in one step for each item and character, where `accepts` may try the same
end of the value again and again. -/
theorem headD_row (is : List Item) (v : Text) : (row is v).headD false = accepts is v := by
  induction is generalizing v with
  | nil => cases v <;> rfl
  | cons i is ih =>
    have hrest (v : Text) : (row (i :: is) v).tail.headD false = accepts is v := by
      rw [tail_row, ih]
    cases i with
    | run =>
      induction v with
      | nil => exact (Bool.true_and _).trans (ih [])
      | cons d v ihv =>
        have hrow : (nextRow d is (row (.run :: is) v).tail).headD false = accepts is (d :: v) :=
          hrest (d :: v)
        change ((nextRow d is (row (.run :: is) v).tail).headD false ||
          (row (.run :: is) v).headD false) = accepts (.run :: is) (d :: v)
        rw [hrow, ihv]
        rfl
    | one => cases v with
      | nil => rfl
      | cons d v => exact hrest v
    | char c => cases v with
      | nil => rfl
      | cons d v => exact congrArg (c.toLower == d.toLower && ·) (hrest v)
    | never => cases v <;> rfl

def holds (operand value : Text) : Bool := (row (items operand) value).headD false

theorem holds_eq (operand value : Text) : holds operand value = accepts (items operand) value :=
  headD_row _ _

/-- What the operator reads of a text that it is given: nothing from the first null character on,
and the two noncharacters of the first plane as the replacement character. -/
def reading (t : Text) : Text :=
  (t.takeWhile (· ≠ '\x00')).map fun c => if c = '\uFFFE' ∨ c = '\uFFFF' then '\uFFFD' else c

def test (operand value : Text) : Bool := holds (reading operand) (reading value)

def escape : Text → Text
  | [] => []
  | c :: cs => if c = '%' ∨ c = '_' ∨ c = '\\' then '\\' :: c :: escape cs else c :: escape cs

theorem items_escape (t rest : Text) : items (escape t ++ rest) = t.map .char ++ items rest := by
  induction t with
  | nil => rfl
  | cons c cs ih =>
    by_cases h : c = '%' ∨ c = '_' ∨ c = '\\'
    · rcases h with rfl | rfl | rfl <;> simp [escape, items, ih]
    · have hc : items (c :: (escape cs ++ rest)) = .char c :: items (escape cs ++ rest) := by
        simp only [not_or] at h
        rw [items] <;> simp_all
      simp [escape, h, hc, ih]

end Jukebox.Like
