import Jukebox.Text.Basic

set_option autoImplicit false

namespace Jukebox.Toml

def digitRun (ok : Char → Bool) : Text → Option (Text × Text)
  | [] => none
  | c :: t => if ok c then (more t).map fun (ds, rest) => (c :: ds, rest) else none
where
  more : Text → Option (Text × Text)
    | [] => some ([], [])
    | '_' :: c :: t => if ok c then (more t).map fun (ds, rest) => (c :: ds, rest) else none
    | c :: t =>
      if ok c then (more t).map fun (ds, rest) => (c :: ds, rest)
      else if c = '_' then none
      else some ([], c :: t)

def isHex (c : Char) : Bool :=
  c.isDigit || ('a' ≤ c && c ≤ 'f') || ('A' ≤ c && c ≤ 'F')

def isOctal (c : Char) : Bool := '0' ≤ c && c ≤ '7'

def isBinary (c : Char) : Bool := c == '0' || c == '1'

def digitValue (c : Char) : Nat :=
  if c.isDigit then c.toNat - '0'.toNat
  else if 'a' ≤ c then c.toNat - 'a'.toNat + 10
  else c.toNat - 'A'.toNat + 10

def valueIn (base : Nat) (digits : Text) : Nat :=
  digits.foldl (fun n c => n * base + digitValue c) 0

def doubleLimit : Nat := (Nat.pow 2 54 - 1) * Nat.pow 2 970

/-- Whether `mantissa` times a power of ten rounds to infinity. Powers far from the limit are told
by their number of digits. -/
def overflows (mantissa : Nat) (exponent : Int) : Bool :=
  let size : Int := (Text.ofNat mantissa).length + exponent
  if mantissa == 0 || size < 300 then false
  else if 320 < size then true
  else match exponent with
    | .ofNat e => doubleLimit ≤ mantissa * Nat.pow 10 e
    | .negSucc e => doubleLimit * Nat.pow 10 (e + 1) ≤ mantissa

/-- Whether a whole number fits into 128 bits, of which one is the sign if it is negative. -/
def integerFits (negative : Bool) (n : Nat) : Bool :=
  if negative then n ≤ Nat.pow 2 127 else n < Nat.pow 2 128

def signed : Text → Bool × Text
  | '-' :: t => (true, t)
  | '+' :: t => (false, t)
  | t => (false, t)

def whole? (t : Text) : Option (Text × Text) :=
  match digitRun Char.isDigit t with
  | some ('0' :: _ :: _, _) => none
  | r => r

def exponent? (t : Text) : Option Int :=
  let (negative, t) := signed t
  match digitRun Char.isDigit t with
  | some (ds, []) =>
    let n : Int := valueIn 10 ds
    some (if negative then -n else n)
  | _ => none

def isExponentMark (c : Char) : Bool := c == 'e' || c == 'E'

def lastExponent? : Text → Option Int
  | [] => some 0
  | c :: t => if isExponentMark c then exponent? t else none

def decimal? (negative : Bool) (t : Text) : Option Bool := do
  match ← whole? t with
  | (ds, []) => return integerFits negative (valueIn 10 ds)
  | (ds, '.' :: rest) => do
    let (fs, rest) ← digitRun Char.isDigit rest
    return !overflows (valueIn 10 (ds ++ fs)) ((← lastExponent? rest) - fs.length)
  | (ds, rest) => return !overflows (valueIn 10 ds) (← lastExponent? rest)

def digitsIn? (base : Nat) (ok : Char → Bool) (t : Text) : Option Bool :=
  match digitRun ok t with
  | some (ds, []) => some (integerFits false (valueIn base ds))
  | _ => none

def number? : Text → Option Bool
  | '0' :: 'x' :: t => digitsIn? 16 isHex t
  | '0' :: 'o' :: t => digitsIn? 8 isOctal t
  | '0' :: 'b' :: t => digitsIn? 2 isBinary t
  | t =>
    let (negative, u) := signed t
    if u = "inf".toList ∨ u = "nan".toList then some true else decimal? negative u

end Jukebox.Toml
