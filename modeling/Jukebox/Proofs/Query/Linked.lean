import Jukebox.Proofs.Lexeme.Pieces
import Jukebox.Proofs.Query.Grammar

set_option autoImplicit false

namespace Jukebox

open Lexeme Text

def Link.behind (l : Link) (s : Text) : Text := s ++ [' '] ++ l.keyword.text ++ [' ']

example : Link.or.behind "a by b".toList ++ "c".toList = "a by b or c".toList := rfl

theorem Keyword.lexemes_text (k : Keyword) : Text.lexemes k.text = [⟨.keyword k, k.text, 0⟩] := by
  have hw : wordEnds k.text = false := by cases k <;> rfl
  have hread := read_keyword k (rfl : wordEnds [])
  rw [List.append_nil] at hread
  rw [lexemes, scan_of_read hw hread, scan_nil]

theorem Link.lexemes_behind_append (l : Link) (s t : Text) :
    (l.behind s ++ t).lexemes =
      s.lexemes ++ ⟨.keyword l.keyword, l.keyword.text, bytes (s ++ [' '])⟩ ::
        t.lexemes.map (shift (bytes (l.behind s))) := by
  have hgap : Blank [' '] := Blank.nil.cons (by decide)
  have hne : [' '] ≠ [] := List.cons_ne_nil _ _
  have houter := lexemes_append hne hgap s (l.keyword.text ++ [' '] ++ t)
  have hinner := lexemes_append hne hgap l.keyword.text t
  have hsplit : l.behind s ++ t = s ++ [' '] ++ (l.keyword.text ++ [' '] ++ t) := by
    simp [behind]
  have hbytes : bytes (l.behind s) = bytes (s ++ [' ']) + bytes (l.keyword.text ++ [' ']) := by
    simp [behind, Nat.add_assoc]
  have hshift : shift (bytes (s ++ [' '])) ∘ shift (bytes (l.keyword.text ++ [' '])) =
      shift (bytes (l.behind s)) := by
    funext m
    simp [shift, hbytes, Nat.add_assoc]
  rw [hsplit, houter, hinner, Keyword.lexemes_text, List.map_append, List.map_map, hshift]
  rfl

/-! Reading does not look at columns, except to tell where it fails. -/

namespace Place

def shift (n : Nat) : Place → Place
  | .named list name => .named list (name.shift n)
  | p => p

@[simp] theorem mayEnd_shift (n : Nat) (p : Place) : (p.shift n).mayEnd = p.mayEnd := by
  cases p <;> rfl

@[simp] theorem expected_shift (n : Nat) (p : Place) (s : Selection) :
    (p.shift n).expected s = p.expected s := by
  rcases p with _ | _ | ⟨_ | _ | _, _⟩ | _ | _ <;> rfl

end Place

def Move.shift (n : Nat) : Move → Move
  | .go p s => .go (p.shift n) s
  | .link l => .link l
  | .fail => .fail

theorem Place.shift_follow (n : Nat) (s : Selection) (k : Keyword) :
    (follow s k).shift n = follow s k := by
  cases k <;> rfl

theorem Place.move_shift (n : Nat) (p : Place) (s : Selection) (l : Lexeme) :
    (p.shift n).move s (l.shift n) = (p.move s l).shift n := by
  obtain ⟨kind, text, column⟩ := l
  cases kind with
  | name => cases p <;> rfl
  | comma => cases p <;> rfl
  | invalid => cases p <;> rfl
  | keyword k =>
    cases hp : p.mayEnd with
    | true =>
      have hp' : (p.shift n).mayEnd := by simpa using hp
      have hl : (Lexeme.shift n ⟨.keyword k, text, column⟩).kind = .keyword k := rfl
      rw [move_keyword rfl hp, move_keyword hl hp', expected_shift, apply_ite (Move.shift n),
        shift_follow]
      rfl
    | false =>
      cases p with
      | start linked => cases k <;> rfl
      | wanting list => rfl
      | named | ordered | shuffled => cases hp

def ParseError.shift (n : Nat) (e : ParseError) : ParseError :=
  { e with lexeme := e.lexeme.map (Lexeme.shift n) }

theorem readQuery_shift (n : Nat) (p : Place) (s : Selection) (ls : List Lexeme) :
    readQuery (p.shift n) s (ls.map (Lexeme.shift n)) =
      (readQuery p s ls).mapError (ParseError.shift n) := by
  induction ls generalizing p s with
  | nil =>
    rw [List.map_nil, readQuery, readQuery, Place.mayEnd_shift, Place.expected_shift]
    cases p.mayEnd <;> rfl
  | cons l ls ih =>
    rw [List.map_cons, readQuery, readQuery, Place.move_shift, Place.expected_shift]
    cases p.move s l with
    | go p s => exact ih p s
    | link l =>
      have hstart : (Place.start true).shift n = .start true := rfl
      have hrest := ih (.start true) .empty
      rw [hstart] at hrest
      simp only [Move.shift, hrest]
      cases readQuery (.start true) .empty ls <;> rfl
    | fail => rfl

namespace Query

open Grammar

/-- The second text is read after the link as it is read alone. -/
theorem parse_behind_append {s : Text} {q : Query} (h : parse s = .ok q) (l : Link) (t : Text) :
    parse (l.behind s ++ t) = match parse t with
      | .ok r => .ok (append l r q)
      | .error e =>
        .error { e.shift (bytes (l.behind s)) with source := some (l.behind s ++ t) } := by
  have hlink := (derives_of_parse h).readQuery_link (l := ⟨.keyword l.keyword, l.keyword.text,
    bytes (s ++ [' '])⟩) rfl (t.lexemes.map (Lexeme.shift (bytes (l.behind s)))) false
  have hmoved : readQuery (.start true) .empty (t.lexemes.map (Lexeme.shift (bytes (l.behind s)))) =
      (ofLexemes t.lexemes).mapError (ParseError.shift (bytes (l.behind s))) := by
    rw [ofLexemes_eq, readQuery_start false true]
    exact readQuery_shift _ (.start true) .empty t.lexemes
  rw [parse, ofLexemes_eq, l.lexemes_behind_append, hlink, hmoved, parse]
  cases ofLexemes t.lexemes <;> rfl

end Query

end Jukebox
