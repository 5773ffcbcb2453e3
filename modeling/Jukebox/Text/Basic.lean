set_option autoImplicit false

namespace Jukebox

abbrev Text := List Char

namespace Text

def bytes : Text → Nat
  | [] => 0
  | c :: cs => c.utf8Size + bytes cs

@[simp] theorem bytes_nil : bytes [] = 0 := rfl

@[simp] theorem bytes_cons (c : Char) (cs : Text) : bytes (c :: cs) = c.utf8Size + bytes cs := rfl

@[simp] theorem bytes_append (s t : Text) : bytes (s ++ t) = bytes s + bytes t := by
  induction s with
  | nil => simp
  | cons c s ih => simp [ih, Nat.add_assoc]

def before? : Nat → Text → Option Text
  | 0, _ => some []
  | _ + 1, [] => none
  | n + 1, c :: cs =>
    if c.utf8Size ≤ n + 1 then (before? (n + 1 - c.utf8Size) cs).map (c :: ·) else none

def fold (t : Text) : Text := t.map Char.toLower

@[simp] theorem fold_append (s t : Text) : fold (s ++ t) = fold s ++ fold t := by simp [fold]

def ofNat (n : Nat) : Text := Nat.toDigits 10 n

def ofInt : Int → Text
  | .ofNat n => ofNat n
  | .negSucc n => '-' :: ofNat (n + 1)

def toNat? (t : Text) : Option Nat :=
  if t.isEmpty || !t.all Char.isDigit then none
  else some (t.foldl (fun n c => n * 10 + (c.toNat - '0'.toNat)) 0)

def toInt? : Text → Option Int
  | '-' :: ds => (toNat? ds).map fun n => -(n : Int)
  | '+' :: ds => (toNat? ds).map Int.ofNat
  | ds => (toNat? ds).map Int.ofNat

def le : Text → Text → Bool
  | [], _ => true
  | _ :: _, [] => false
  | c :: s, d :: t => if c = d then le s t else c.toNat < d.toNat

def sort (ts : List Text) : List Text := ts.mergeSort le

def collapse : List Text → List Text
  | [] => []
  | t :: ts => match collapse ts with
    | [] => [t]
    | u :: us => if t = u then u :: us else t :: u :: us

def join (sep : String) (parts : List Text) : Text := sep.toList.intercalate parts

def after? : Text → Text → Option Text
  | [], t => some t
  | _ :: _, [] => none
  | c :: cs, d :: ds => if c = d then after? cs ds else none

/-- A text is cut where its characters stop having a property. -/
theorem takeWhile_dropWhile_append {p : Char → Bool} {t rest : Text} (ht : ∀ c ∈ t, p c)
    (hstop : ∀ c, rest.head? = some c → p c = false) :
    (t ++ rest).takeWhile p = t ∧ (t ++ rest).dropWhile p = rest := by
  rw [List.takeWhile_append_of_pos ht, List.dropWhile_append_of_pos ht]
  cases rest with
  | nil => exact ⟨List.append_nil t, rfl⟩
  | cons c cs => simp [hstop c rfl]

theorem after?_eq_some_iff {start t rest : Text} :
    after? start t = some rest ↔ t = start ++ rest := by
  induction start generalizing t with
  | nil => simp [after?]
  | cons c cs ih =>
    cases t with
    | nil => simp [after?]
    | cons d ds =>
      by_cases h : c = d
      · simp [after?, h, ih]
      · simp [after?, h, Ne.symm h]

def startsWith (start t : Text) : Bool := (after? start t).isSome

theorem startsWith_iff {start t : Text} : startsWith start t ↔ start <+: t := by
  simp only [startsWith, Option.isSome_iff_exists, after?_eq_some_iff]
  exact ⟨fun ⟨r, h⟩ => ⟨r, h.symm⟩, fun ⟨r, h⟩ => ⟨r, h.symm⟩⟩

/-- The lines of a text: a final line break opens no further line, and a carriage return before
a line break belongs to the break. -/
def lines (t : Text) : List Text :=
  let parts := t.splitOn '\n'
  let closed := parts.dropLast.map fun l => if l.getLast? = some '\r' then l.dropLast else l
  match parts.getLast? with
  | none | some [] => closed
  | some l => closed ++ [l]

/-- Whether `part` occurs in the text; the text in front of its first occurrence. -/
def cut? (part : Text) : Text → Option Text
  | [] => if part = [] then some [] else none
  | c :: cs => if startsWith part (c :: cs) then some [] else (cut? part cs).map (c :: ·)

end Text

end Jukebox
