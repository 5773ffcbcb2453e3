import Jukebox.Lexeme
import Jukebox.Text.Blank

/-!
Reads a text into lexemes. At each place that is not blank the first rule that applies wins: a
keyword, a comma, a name, and at last the run of characters up to the next blank.
-/

set_option autoImplicit false

namespace Jukebox

namespace Text

def wordEnds : Text → Bool
  | [] => true
  | c :: _ => isBlank c

def nameEnds : Text → Bool
  | [] => true
  | c :: _ => isBlank c || c == ','

def takeChar (c : Char) : Text → Text × Text
  | [] => ([], [])
  | d :: ds => if d = c then ([d], ds) else ([], d :: ds)

theorem takeChar_append (c : Char) (t : Text) : (takeChar c t).1 ++ (takeChar c t).2 = t := by
  cases t with
  | nil => rfl
  | cons d ds => by_cases h : d = c <;> simp [takeChar, h]

end Text

/-- What a rule read off the front of a text: the lexeme's kind and text, the characters that it
took, and the characters that it left. -/
structure Reading where
  kind : Kind
  text : Text
  taken : Text
  rest : Text
  deriving DecidableEq, Repr

structure Reading.Of (cs : Text) (r : Reading) : Prop where
  split : r.taken ++ r.rest = cs
  taken_ne_nil : r.taken ≠ []

namespace Lexeme

def isNameChar (c : Char) : Bool := c.isAlphanum || c == '.' || c == '-'

def readKeyword? (cs : Text) : Option Reading :=
  Keyword.all.findSome? fun k =>
    match Text.after? k.text cs with
    | some rest => if Text.wordEnds rest then some ⟨.keyword k, k.text, k.text, rest⟩ else none
    | none => none

def readComma? : Text → Option Reading
  | ',' :: rest => some ⟨.comma, [','], [','], rest⟩
  | _ => none

/-- Reads a name: an escaping colon, which is no part of the name, a caret for the start, name
characters, and a dollar sign for the end. -/
def readName? (cs : Text) : Option Reading :=
  let (colon, afterColon) := Text.takeChar ':' cs
  let (caret, afterCaret) := Text.takeChar '^' afterColon
  let core := afterCaret.takeWhile isNameChar
  let (dollar, rest) := Text.takeChar '$' (afterCaret.dropWhile isNameChar)
  if core ≠ [] ∧ Text.nameEnds rest then
    let name := caret ++ core ++ dollar
    some ⟨.name, name, colon ++ name, rest⟩
  else none

def readInvalid (cs : Text) : Reading :=
  let run := cs.takeWhile (!isBlank ·)
  ⟨.invalid, run, run, cs.dropWhile (!isBlank ·)⟩

def read (cs : Text) : Reading :=
  ((readKeyword? cs).or ((readComma? cs).or (readName? cs))).getD (readInvalid cs)

theorem of_readKeyword? {cs : Text} {r : Reading} (h : readKeyword? cs = some r) :
    Reading.Of cs r := by
  obtain ⟨k, -, hk⟩ := List.exists_of_findSome?_eq_some h
  split at hk
  · next rest hrest =>
    split at hk
    · cases hk
      exact ⟨(Text.after?_eq_some_iff.1 hrest).symm, k.text_ne_nil⟩
    · cases hk
  · cases hk

theorem of_readComma? {cs : Text} {r : Reading} (h : readComma? cs = some r) :
    Reading.Of cs r := by
  unfold readComma? at h
  split at h
  · cases h; exact ⟨rfl, by simp⟩
  · cases h

theorem of_readName? {cs : Text} {r : Reading} (h : readName? cs = some r) :
    Reading.Of cs r := by
  have hcolon := Text.takeChar_append ':' cs
  have hcaret := Text.takeChar_append '^' (Text.takeChar ':' cs).2
  have hdollar := Text.takeChar_append '$'
    ((Text.takeChar '^' (Text.takeChar ':' cs).2).2.dropWhile isNameChar)
  simp only [readName?] at h
  split at h
  · next hc =>
    cases h
    refine ⟨?_, by simp [hc.1]⟩
    simp only [List.append_assoc]
    rw [hdollar, List.takeWhile_append_dropWhile, hcaret, hcolon]
  · cases h

theorem of_readInvalid {c : Char} {cs : Text} (h : isBlank c = false) :
    Reading.Of (c :: cs) (readInvalid (c :: cs)) :=
  ⟨List.takeWhile_append_dropWhile, by simp [readInvalid, h]⟩

theorem of_read {c : Char} {cs : Text} (h : isBlank c = false) :
    Reading.Of (c :: cs) (read (c :: cs)) := by
  unfold read
  cases hk : readKeyword? (c :: cs) with
  | some r => exact of_readKeyword? hk
  | none =>
    cases hc : readComma? (c :: cs) with
    | some r => exact of_readComma? hc
    | none =>
      cases hn : readName? (c :: cs) with
      | some r => exact of_readName? hn
      | none => exact of_readInvalid h

theorem length_rest_read {c : Char} {cs : Text} (h : isBlank c = false) :
    (read (c :: cs)).rest.length < (c :: cs).length := by
  have hr : Reading.Of (c :: cs) (read (c :: cs)) := of_read h
  have hlen := congrArg List.length hr.split
  have hpos := List.length_pos_iff.2 hr.taken_ne_nil
  rw [List.length_append] at hlen
  omega

def scan (column : Nat) : Text → List Lexeme
  | [] => []
  | c :: cs =>
    if _ : isBlank c then scan (column + c.utf8Size) cs
    else
      let r := read (c :: cs)
      ⟨r.kind, r.text, column⟩ :: scan (column + Text.bytes r.taken) r.rest
termination_by cs => cs.length
decreasing_by
  · simp
  · rename_i h
    exact length_rest_read (by simpa using h)

end Lexeme

def Text.lexemes (t : Text) : List Lexeme := Lexeme.scan 0 t

end Jukebox
