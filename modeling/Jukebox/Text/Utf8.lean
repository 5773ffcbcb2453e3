import Jukebox.Text.Basic

/-!
Texts as bytes, and bytes as texts. Bytes that are not UTF-8 can be read too, but not without loss:
what cannot go on to a character is replaced, as far as it was read, by one sign.
-/

set_option autoImplicit false

namespace Jukebox

/-- A string of the operating system, which is UTF-8 by habit only. -/
abbrev OsText := List UInt8

def Text.utf8 (t : Text) : OsText := t.flatMap String.utf8EncodeChar

namespace OsText

def replacement : Char := '\uFFFD'

structure Begun where
  value : Nat
  missing : Nat
  low : Nat
  high : Nat
  deriving DecidableEq, Repr

/-- The first of several bytes, by which no character may be written longer than it has to be and
no surrogate at all. -/
def begun? (b : Nat) : Option Begun :=
  if 0xC2 ≤ b ∧ b ≤ 0xDF then some ⟨b % 32, 1, 0x80, 0xBF⟩
  else if b = 0xE0 then some ⟨0, 2, 0xA0, 0xBF⟩
  else if b = 0xED then some ⟨13, 2, 0x80, 0x9F⟩
  else if 0xE1 ≤ b ∧ b ≤ 0xEF then some ⟨b % 16, 2, 0x80, 0xBF⟩
  else if b = 0xF0 then some ⟨0, 3, 0x90, 0xBF⟩
  else if b = 0xF4 then some ⟨4, 3, 0x80, 0x8F⟩
  else if 0xF1 ≤ b ∧ b ≤ 0xF3 then some ⟨b % 8, 3, 0x80, 0xBF⟩
  else none

def start (b : Nat) : Text × Option Begun :=
  if b < 0x80 then ([Char.ofNat b], none)
  else match begun? b with
    | some s => ([], some s)
    | none => ([replacement], none)

def Begun.step (s : Begun) (b : Nat) : Text × Option Begun :=
  if s.low ≤ b ∧ b ≤ s.high then
    let value := s.value * 64 + b % 64
    if s.missing = 1 then ([Char.ofNat value], none)
    else ([], some ⟨value, s.missing - 1, 0x80, 0xBF⟩)
  else
    -- The byte is not part of what was begun, and is read once more for itself.
    (replacement :: (start b).1, (start b).2)

def step (s : Option Begun) (b : Nat) : Text × Option Begun := s.elim (start b) (·.step b)

def lossyFrom (s : Option Begun) : OsText → Text
  | [] => if s.isSome then [replacement] else []
  | b :: bs => (step s b.toNat).1 ++ lossyFrom (step s b.toNat).2 bs

def lossy (p : OsText) : Text := lossyFrom none p

end OsText

end Jukebox
