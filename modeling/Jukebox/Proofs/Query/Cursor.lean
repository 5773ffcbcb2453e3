import Jukebox.Proofs.Lexeme.Pieces
import Jukebox.Proofs.Query.Reach

set_option autoImplicit false

namespace Jukebox

open Lexeme Place Text

/-- The word that comes after some lexemes, by the last of them. -/
def wordAfter (ls : List Lexeme) : Cursor :=
  match ls.getLast? with
  | none => ⟨.keyword, none⟩
  | some l => match l.kind with
    | .name => ⟨.name (lastList ls), some l⟩
    | .comma => ⟨.name (lastList ls), none⟩
    | .keyword .onAlbums => ⟨.name .albums, none⟩
    | .keyword .byArtists => ⟨.name .artists, none⟩
    | .keyword .and | .keyword .or => ⟨.name .titles, none⟩
    | .keyword .ordered | .keyword .shuffle | .invalid => ⟨.keyword, none⟩

theorem Place.Ends.cursor_eq {ls : List Lexeme} {p : Place} (h : Ends ls p) :
    p.cursor = wordAfter ls := by
  cases h with
  | nil => rfl
  | @link _ _ link hl => cases link <;> simp [wordAfter, hl, Link.keyword, Place.cursor]
  | albums hl | artists hl | ordered hl | shuffled hl => simp [wordAfter, hl, Place.cursor]
  | @name ls l hl | @comma ls l hl =>
    have hlist : lastList (ls ++ [l]) = lastList ls := lastList_concat (by rw [hl]; rfl)
    simp [wordAfter, hl, hlist, Place.cursor]

theorem Place.mayEnd_of_fail {p : Place} {s : Selection} {l : Lexeme} (h : p.move s l = .fail)
    (hl : l.kind = .name) : p.mayEnd := by
  cases p with
  | start | wanting => simp [move, hl] at h
  | named | ordered | shuffled => rfl

namespace Query

theorem cursor_of_reaches {t : Text} {p : Place} {s : Selection}
    (h : Reaches (.start false) .empty t.lexemes p s) : cursor t = wordAfter t.lexemes := by
  have hcursor := readCursor_of_reaches h []
  rw [List.append_nil, readCursor, h.ends.cursor_eq] at hcursor
  exact (cursor_eq t).trans hcursor

theorem cursor_of_fail {t : Text} {front rest : List Lexeme} {l : Lexeme} {p : Place}
    {s : Selection} (ht : t.lexemes = front ++ l :: rest)
    (h : Reaches (.start false) .empty front p s) (hl : p.move s l = .fail) :
    cursor t = if l.kind = .name then ⟨.keyword, some l⟩ else wordAfter front := by
  rw [cursor_eq, ht, readCursor_of_reaches h, readCursor, hl, cursorAt, h.ends.cursor_eq]
  by_cases hk : l.kind = .name
  · simp [hk, mayEnd_of_fail hl hk]
  · simp [hk]

theorem cursor_of_prefix {t u : Text} {l : Lexeme} (ho : offending? t = some l)
    (hu : passed t ++ [l] <+: u.lexemes) : cursor u = cursor t := by
  obtain ⟨rest, p, s, ht, h, hf⟩ := exists_passed ho
  obtain ⟨more, hmore⟩ := hu
  rw [List.append_assoc] at hmore
  rw [cursor_of_fail ht h hf, cursor_of_fail hmore.symm h hf]

/-- The word at the end of a text is told by the lexemes that are passed and by the one that may not
follow them. What comes after that one changes nothing. -/
theorem cursor_eq_wordAfter (t : Text) :
    (cursor t = match offending? t with
      | some l => if l.kind = .name then ⟨.keyword, some l⟩ else wordAfter (passed t)
      | none => wordAfter (passed t)) ∧
    (∀ l, offending? t = some l → passed t ++ [l] <+: t.lexemes) ∧
    (∀ l u, offending? t = some l → passed t ++ [l] <+: u.lexemes → cursor u = cursor t) ∧
    ∀ l front gap rest more, offending? t = some l → t = front ++ gap ++ rest → l ∈ front.lexemes →
      gap ≠ [] → Blank gap → cursor (front ++ gap ++ more) = cursor t := by
  have hpassed (l : Lexeme) (ho : offending? t = some l) : passed t ++ [l] <+: t.lexemes := by
    obtain ⟨rest, p, s, ht, -, -⟩ := exists_passed ho
    exact ⟨rest, by rw [ht, List.append_assoc, List.singleton_append]⟩
  refine ⟨?_, hpassed, fun l u => cursor_of_prefix, ?_⟩
  · cases ho : offending? t with
    | some l =>
      obtain ⟨rest, p, s, ht, h, hf⟩ := exists_passed ho
      exact cursor_of_fail ht h hf
    | none =>
      obtain ⟨p, s, h⟩ := exists_reaches_lexemes ho
      rw [passed_of_none ho]
      exact cursor_of_reaches h
  · intro l front gap rest more ho ht hl hne hgap
    obtain ⟨before, after, hfront⟩ := List.append_of_mem hl
    have hlexemes (u : Text) : ∃ after', (front ++ gap ++ u).lexemes = before ++ l :: after' := by
      rw [lexemes_append hne hgap, hfront, List.append_assoc]
      exact ⟨_, rfl⟩
    obtain ⟨after, hafter⟩ := hlexemes rest
    obtain ⟨after', hafter'⟩ := hlexemes more
    rw [← ht] at hafter
    refine cursor_of_prefix ho ?_
    rw [passed_eq ho hafter, hafter']
    exact ⟨after', by simp⟩

end Query

end Jukebox
