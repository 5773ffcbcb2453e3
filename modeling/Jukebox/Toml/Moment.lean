import Jukebox.Text.Basic

set_option autoImplicit false

namespace Jukebox.Toml

def digits? : Nat → Text → Option (Nat × Text) := go 0
where
  go (value : Nat) : Nat → Text → Option (Nat × Text)
    | 0, t => some (value, t)
    | _ + 1, [] => none
    | n + 1, c :: t => if c.isDigit then go (value * 10 + (c.toNat - '0'.toNat)) n t else none

def field? (n low high : Nat) (t : Text) : Option (Nat × Text) := do
  let (value, rest) ← digits? n t
  if low ≤ value ∧ value ≤ high then some (value, rest) else none

def mark (c : Char) : Text → Option Text
  | [] => none
  | d :: t => if d = c then some t else none

def isLeap (year : Nat) : Bool := year % 4 == 0 && (year % 100 != 0 || year % 400 == 0)

def daysIn (year month : Nat) : Nat :=
  if month == 2 then (if isLeap year then 29 else 28)
  else if month == 4 || month == 6 || month == 9 || month == 11 then 30
  else 31

def date? (t : Text) : Option Text := do
  let (year, t) ← digits? 4 t
  let t ← mark '-' t
  let (month, t) ← field? 2 1 12 t
  let t ← mark '-' t
  let (_, t) ← field? 2 1 (daysIn year month) t
  return t

def fraction? : Text → Option Text
  | '.' :: c :: t => if c.isDigit then some (t.dropWhile Char.isDigit) else none
  | '.' :: [] => none
  | t => some t

/-- What follows a time. Seconds may be left out, and there may be a leap second. -/
def time? (t : Text) : Option Text := do
  let (_, t) ← field? 2 0 23 t
  let t ← mark ':' t
  let (_, t) ← field? 2 0 59 t
  match t with
  | ':' :: t => do
    let (_, t) ← field? 2 0 60 t
    fraction? t
  | t => return t

def offset? : Text → Option Text
  | [] => some []
  | c :: t =>
    if c == 'Z' || c == 'z' then some t
    else if c == '+' || c == '-' then do
      let (_, t) ← field? 2 0 23 t
      let t ← mark ':' t
      let (_, t) ← field? 2 0 59 t
      return t
    else none

def isMoment (t : Text) : Bool :=
  match date? t with
  | some [] => true
  | some (c :: rest) =>
    (c == 'T' || c == 't' || c == ' ') && ((time? rest).bind offset?).any List.isEmpty
  | none => (time? t).any List.isEmpty

end Jukebox.Toml
