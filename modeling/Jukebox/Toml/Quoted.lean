import Jukebox.Toml.Number
import Jukebox.Toml.Space

set_option autoImplicit false

namespace Jukebox.Toml

def hexChar? (digits : Text) : Option Char :=
  let n := valueIn 16 digits
  if digits.all isHex ∧ n.isValidChar then some (Char.ofNat n) else none

def mark? : Char → Option Char
  | 'b' => some '\x08'
  | 't' => some '\t'
  | 'n' => some '\n'
  | 'f' => some '\x0c'
  | 'r' => some '\r'
  | 'e' => some '\x1b'
  | '"' => some '"'
  | '\\' => some '\\'
  | _ => none

def digitCount? : Char → Option Nat
  | 'x' => some 2
  | 'u' => some 4
  | 'U' => some 8
  | _ => none

def escaped? : Text → Option (Char × Text)
  | [] => none
  | c :: t => match mark? c, digitCount? c with
    | some d, _ => some (d, t)
    | none, some n => if n ≤ t.length then (hexChar? (t.take n)).map (·, t.drop n) else none
    | none, none => none

theorem escaped?_length {t : Text} {c : Char} {rest : Text} (h : escaped? t = some (c, rest)) :
    rest.length < t.length := by
  unfold escaped? at h
  split at h
  · cases h
  · split at h
    · cases h; simp
    · split at h
      · obtain ⟨d, -, hd⟩ := Option.map_eq_some_iff.1 h
        cases hd
        simp only [List.length_drop, List.length_cons]
        omega
      · cases h
    · cases h

def skipFold : Text → Text
  | [] => []
  | c :: t =>
    if isSpace c || c == '\n' then skipFold t
    else if c == '\r' && t.head? == some '\n' then skipFold t
    else c :: t

theorem skipFold_length (t : Text) : (skipFold t).length ≤ t.length := by
  fun_induction skipFold t <;> simp_all <;> omega

/-- The rest of the text where a backslash ends a line. -/
def folded? (t : Text) : Option Text := (newline? (skipSpace t)).map skipFold

theorem folded?_length {t rest : Text} (h : folded? t = some rest) : rest.length < t.length := by
  obtain ⟨u, hu, rfl⟩ := Option.map_eq_some_iff.1 h
  have hskip : (skipSpace t).length ≤ t.length := (List.dropWhile_suffix _).length_le
  have hnew : u.length < (skipSpace t).length := by
    unfold newline? at hu
    split at hu
    · next heq => cases hu; rw [heq, List.length_cons]; omega
    · next heq => cases hu; rw [heq, List.length_cons, List.length_cons]; omega
    · cases hu
  have := skipFold_length u
  omega

def consRead (front : Text) (r : Option (Text × Text)) : Option (Text × Text) :=
  r.map fun (read, rest) => (front ++ read, rest)

def basic? (t : Text) : Option (Text × Text) :=
  match t with
  | [] => none
  | '"' :: t => some ([], t)
  | '\\' :: t => match _ : escaped? t with
    | some (c, rest) => consRead [c] (basic? rest)
    | none => none
  | c :: t => if isPlain c then consRead [c] (basic? t) else none
termination_by t.length
decreasing_by
  · rename_i h
    have := escaped?_length h
    simp only [List.length_cons]
    omega
  · simp

/-- Reads up to three double quotes. One or two more in front of these belong to the text. -/
def basicLines? (t : Text) : Option (Text × Text) :=
  match t with
  | [] => none
  | '"' :: '"' :: '"' :: '"' :: '"' :: t => some (['"', '"'], t)
  | '"' :: '"' :: '"' :: '"' :: t => some (['"'], t)
  | '"' :: '"' :: '"' :: t => some ([], t)
  | '\\' :: t => match _ : folded? t with
    | some rest => basicLines? rest
    | none => match _ : escaped? t with
      | some (c, rest) => consRead [c] (basicLines? rest)
      | none => none
  | '\n' :: t => consRead ['\n'] (basicLines? t)
  | '\r' :: '\n' :: t => consRead ['\r', '\n'] (basicLines? t)
  | c :: t => if isPlain c then consRead [c] (basicLines? t) else none
termination_by t.length
decreasing_by
  · rename_i h
    have := folded?_length h
    simp only [List.length_cons]
    omega
  · rename_i h
    have := escaped?_length h
    simp only [List.length_cons]
    omega
  · simp
  · simp only [List.length_cons]
    omega
  · simp

def literal? : Text → Option (Text × Text)
  | [] => none
  | '\'' :: t => some ([], t)
  | c :: t => if isPlain c then consRead [c] (literal? t) else none

def literalLines? : Text → Option (Text × Text)
  | [] => none
  | '\'' :: '\'' :: '\'' :: '\'' :: '\'' :: t => some (['\'', '\''], t)
  | '\'' :: '\'' :: '\'' :: '\'' :: t => some (['\''], t)
  | '\'' :: '\'' :: '\'' :: t => some ([], t)
  | '\n' :: t => consRead ['\n'] (literalLines? t)
  | '\r' :: '\n' :: t => consRead ['\r', '\n'] (literalLines? t)
  | c :: t => if isPlain c then consRead [c] (literalLines? t) else none

def skipFirstBreak (t : Text) : Text := (newline? t).getD t

def quoted? : Text → Option (Text × Text)
  | '"' :: '"' :: '"' :: t => basicLines? (skipFirstBreak t)
  | '"' :: t => basic? t
  | '\'' :: '\'' :: '\'' :: t => literalLines? (skipFirstBreak t)
  | '\'' :: t => literal? t
  | _ => none

end Jukebox.Toml
