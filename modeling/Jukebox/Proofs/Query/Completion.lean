import Jukebox.Completion
import Jukebox.Proofs.Query.Cursor
import Jukebox.Proofs.Query.RoundTrip
import Jukebox.Proofs.Text.Order

set_option autoImplicit false

namespace Jukebox

/-- A source that keeps a list of what it was asked for. -/
def noting {ε : Type} (source : Lookup → Except ε (List Text)) (l : Lookup) :
    ExceptT ε (StateM (List Lookup)) (List Text) := do
  modify (· ++ [l])
  MonadExcept.ofExcept (source l)

theorem Keyword.mem_startingWith {start v : Text} :
    v ∈ startingWith start ↔ ∃ k : Keyword, v = k.text ∧ start <+: v := by
  rw [startingWith, List.mem_filter, List.mem_map, Text.startsWith_iff]
  constructor
  · rintro ⟨⟨k, -, rfl⟩, hk⟩
    exact ⟨k, rfl, hk⟩
  · rintro ⟨k, rfl, hk⟩
    exact ⟨⟨k, k.mem_all, rfl⟩, hk⟩

theorem lexeme_wordAfter {ls : List Lexeme} {l : Lexeme} (h : (wordAfter ls).lexeme = some l) :
    l ∈ ls ∧ l.kind = .name := by
  unfold wordAfter at h
  cases hl : ls.getLast? with
  | none =>
    rw [hl] at h
    cases h
  | some m =>
    rw [hl] at h
    have hm := List.mem_of_getLast? hl
    cases hk : m.kind with
    | name =>
      simp only [hk] at h
      cases h
      exact ⟨hm, hk⟩
    | comma | invalid =>
      simp only [hk] at h
      cases h
    | keyword k => cases k <;> simp only [hk] at h <;> cases h

namespace Query

/-- The word at the end of a text is one of its names, as far as it is typed. -/
theorem lexeme_cursor {t : Text} {l : Lexeme} (h : (cursor t).lexeme = some l) :
    l ∈ t.lexemes ∧ l.kind = .name := by
  cases ho : offending? t with
  | none =>
    obtain ⟨p, s, hreach⟩ := exists_reaches_lexemes ho
    rw [cursor_of_reaches hreach] at h
    exact lexeme_wordAfter h
  | some m =>
    obtain ⟨rest, p, s, ht, hreach, hf⟩ := exists_passed ho
    rw [cursor_of_fail ht hreach hf] at h
    by_cases hk : m.kind = .name
    · rw [if_pos hk] at h
      cases h
      exact ⟨by rw [ht]; exact List.mem_append_right _ List.mem_cons_self, hk⟩
    · rw [if_neg hk] at h
      obtain ⟨hl, hname⟩ := lexeme_wordAfter h
      exact ⟨by rw [ht]; exact List.mem_append_left _ hl, hname⟩

theorem isName_of_typed {t w : Text} (h : (cursor t).typed = some w) : Lexeme.IsName w := by
  obtain ⟨l, hl, rfl⟩ := Option.map_eq_some_iff.1 h
  obtain ⟨hmem, hkind⟩ := lexeme_cursor hl
  exact Lexeme.isName_of_mem_scan hmem hkind

theorem cursor_name {w : Text} (hn : Lexeme.IsName w) (hk : Keyword.ofText? w = none) :
    cursor w = ⟨.name .titles, some ⟨.name, w, 0⟩⟩ := by
  have hread : Lexeme.read (w ++ []) = ⟨.name, w, w, []⟩ := Lexeme.read_name hn rfl fun _ => hk
  have hwords : Text.wordEnds (w ++ []) = false := wordEnds_name_append hn []
  rw [List.append_nil] at hread hwords
  rw [cursor_eq, Text.lexemes, Lexeme.scan_of_read hwords hread, Lexeme.scan_nil]
  rfl

theorem completions_of_keyword {ε : Type} (source : Lookup → Except ε (List Text)) {t : Text}
    (h : (cursor t).word = .keyword) : completions source t =
      .ok (Text.collapse (Text.sort (Keyword.startingWith ((cursor t).typed.getD [])))) := by
  rw [completions, Cursor.wanted, h]
  rfl

theorem completions_of_name {ε : Type} (source : Lookup → Except ε (List Text)) {t : Text}
    {list : NameList} (h : (cursor t).word = .name list) : completions source t =
      (source ⟨list, (cursor t).typed⟩).map fun vs => Text.collapse (Text.sort vs) := by
  rw [completions, Cursor.wanted, h]
  rfl

theorem lookups_of_keyword {t : Text} (h : (cursor t).word = .keyword) : lookups t = [] := by
  rw [lookups, Cursor.wanted, h]

theorem lookups_of_name {t : Text} {list : NameList} (h : (cursor t).word = .name list) :
    lookups t = [⟨list, (cursor t).typed⟩] := by
  rw [lookups, Cursor.wanted, h]

/-- Noting what is asked for changes no answer, and what is noted is the lookups of the text. -/
theorem completions_noting {ε : Type} (source : Lookup → Except ε (List Text)) (t : Text) :
    (completions (noting source) t).run.run [] = (completions source t, lookups t) := by
  rw [completions, completions, lookups]
  cases (cursor t).wanted with
  | keywords start => rfl
  | values l =>
    have hask : (noting source l).run.run [] = (source l, [l]) := by
      unfold noting
      cases source l <;> rfl
    simp only [ExceptT.run, StateT.run, bind, ExceptT.bind, ExceptT.mk, StateT.bind] at hask ⊢
    rw [hask]
    cases source l <;> rfl

end Query

end Jukebox
