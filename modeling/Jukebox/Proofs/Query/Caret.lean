import Mathlib.Data.List.TakeWhile
import Mathlib.Data.Nat.Digits.Defs
import Jukebox.Proofs.Query.Reach
import Jukebox.Proofs.Text.Parts

set_option autoImplicit false

namespace Jukebox

open Lexeme Text

/-! Error messages are made of one line. -/

theorem Lexeme.not_blank_of_mem_read {c : Char} {cs : Text} (hc : c ∈ (read cs).text) :
    isBlank c = false := by
  revert hc
  unfold read
  cases hk : readKeyword? cs with
  | some r =>
    rw [readKeyword?_eq] at hk
    obtain ⟨k, -, rfl⟩ := Option.map_eq_some_iff.1 hk
    exact Keyword.not_blank_of_mem_text
  | none =>
    cases hcomma : readComma? cs with
    | some r =>
      unfold readComma? at hcomma
      split at hcomma
      · cases hcomma
        intro hc
        rw [List.mem_singleton.1 hc]
        decide
      · cases hcomma
    | none =>
      cases hn : readName? cs with
      | some r =>
        obtain ⟨_, name, _, -, hname, -, -, rfl⟩ := exists_of_readName? hn
        exact not_blank_of_isName hname c
      | none =>
        intro hc
        simpa using List.mem_takeWhile_imp hc

theorem Lexeme.not_blank_of_mem_scan {column : Nat} {cs : Text} {l : Lexeme}
    (h : l ∈ scan column cs) {d : Char} (hd : d ∈ l.text) : isBlank d = false := by
  fun_induction scan column cs with
  | case1 => cases h
  | case2 column c cs hc ih => exact ih h
  | case3 column c cs hc r ih =>
    cases h with
    | head => exact not_blank_of_mem_read hd
    | tail _ h => exact ih h

theorem Kind.newline_not_mem_text (k : Kind) : '\n' ∉ k.text := by
  have hall : (all.all fun k => !k.text.contains '\n') = true := by decide
  have hk := List.all_eq_true.1 hall k k.mem_all
  simpa using hk

theorem Text.newline_not_mem_ofNat (n : Nat) : '\n' ∉ ofNat n := fun h =>
  absurd (Nat.isDigit_of_mem_toDigits (by decide) (by decide) h) (by decide)

theorem Lexeme.newline_not_mem_describe {l : Lexeme} (h : '\n' ∉ l.text) : '\n' ∉ l.describe := by
  obtain ⟨kind, text, column⟩ := l
  cases kind <;> simp [describe, h]

namespace ParseError

theorem newline_not_mem_message {e : ParseError} (h : ∀ l, e.lexeme = some l → '\n' ∉ l.text) :
    '\n' ∉ e.message := by
  obtain ⟨lexeme, kinds, source⟩ := e
  let failure : Text := message ⟨lexeme, [], none⟩
  have hfailure : '\n' ∉ failure := by
    cases lexeme with
    | none => decide
    | some l => exact newline_not_mem_describe (h l rfl)
  have hkinds : '\n' ∉ join ", " (kinds.map Kind.text) := by
    intro hmem
    rcases mem_join hmem with hmem | ⟨t, ht, hmem⟩
    · exact absurd hmem (by decide)
    · obtain ⟨k, -, rfl⟩ := List.mem_map.1 ht
      exact k.newline_not_mem_text hmem
  cases kinds with
  | nil => exact hfailure
  | cons k kinds =>
    cases kinds with
    | nil =>
      have hone : message ⟨lexeme, [k], source⟩ = failure ++ ", expected ".toList ++ k.text := rfl
      rw [hone]
      simp only [List.mem_append, not_or]
      exact ⟨⟨hfailure, by decide⟩, k.newline_not_mem_text⟩
    | cons l kinds =>
      have hmore : message ⟨lexeme, k :: l :: kinds, source⟩ =
        failure ++ ", expected one of \x7b".toList ++
          join ", " ((k :: l :: kinds).map Kind.text) ++ ['\x7d'] := rfl
      rw [hmore]
      simp only [List.mem_append, not_or]
      exact ⟨⟨⟨hfailure, by decide⟩, hkinds⟩, by decide⟩

def header (e : ParseError) (column : Nat) : Text :=
  "query syntax error".toList ++ (" at column ".toList ++ ofNat column) ++ ": ".toList ++ e.message

theorem newline_not_mem_header {e : ParseError} (h : '\n' ∉ e.message) (column : Nat) :
    '\n' ∉ e.header column := by
  unfold header
  simp only [List.mem_append, not_or]
  exact ⟨⟨⟨by decide, by decide, newline_not_mem_ofNat column⟩, by decide⟩, h⟩

/-- Where the column lies between two characters, the caret stands under the second of them. -/
theorem display_eq {e : ParseError} {front rest : Text} (hs : e.source = some (front ++ rest))
    (hc : e.column? = some (bytes front))
    (hbefore : before? (min (bytes front) (bytes (front ++ rest))) (front ++ rest) = some front) :
    e.display = e.header (bytes front) ++ "\n  ".toList ++ (front ++ rest) ++
      ['\n'] ++ List.replicate (2 + front.length) ' ' ++ ['^'] := by
  have hindent : indent (front ++ rest) (bytes front) = front.length := by rw [indent, hbefore]
  have hmargin : "\n  ".toList = ['\n'] ++ List.replicate 2 ' ' := rfl
  have hcaret : "\n  ".toList ++ List.replicate front.length ' ' ++ ['^'] =
      ['\n'] ++ List.replicate (2 + front.length) ' ' ++ ['^'] := by
    rw [← List.replicate_append_replicate, hmargin, List.append_assoc ['\n']]
  unfold display header
  rw [hc, hs]
  simp only [hindent, hcaret, List.append_assoc]

end ParseError

namespace Query

/-- The lexeme that may not stand in a text begins where the text can be cut at the error's column,
and a text that ends too early is cut behind its end. -/
theorem exists_split_of_error {t : Text} {e : ParseError} (h : parse t = .error e) :
    e.source = some t ∧ ∃ front rest, t = front ++ rest ∧ e.column? = some (bytes front) ∧
      (∀ l, e.lexeme = some l → l ∈ t.lexemes ∧ l.column = bytes front ∧
        (l.text <+: rest ∨ ':' :: l.text <+: rest)) ∧
      (e.lexeme = none → rest = []) := by
  cases ho : offending? t with
  | some l =>
    obtain ⟨more, p, s, ht, hr, hf⟩ := exists_passed ho
    cases h.symm.trans (parse_of_fail ht hr hf)
    have hl : l ∈ t.lexemes := ht ▸ List.mem_append_cons_self
    obtain ⟨front, source, rest, hsplit, hcolumn, hs⟩ := (laid_scan 0 t).split l hl
    rw [Nat.zero_add] at hcolumn
    refine ⟨rfl, front, source ++ rest, by rw [hsplit, List.append_assoc],
      congrArg some hcolumn, ?_, nofun⟩
    rintro m ⟨⟩
    refine ⟨hl, hcolumn, ?_⟩
    rcases hs.eq_text with rfl | ⟨-, rfl⟩
    · exact .inl (List.prefix_append _ _)
    · exact .inr (List.prefix_append _ _)
  | none =>
    obtain ⟨p, s, hr⟩ := exists_reaches_lexemes ho
    have hparse := parse_of_reaches hr
    rw [h] at hparse
    split at hparse
    · obtain ⟨q, hq⟩ := hparse
      cases hq
    · cases hparse
      exact ⟨rfl, t, [], (List.append_nil t).symm, rfl, nofun, fun _ => rfl⟩

/-- The column of a query that does not parse is a boundary between characters: that in front of the
offending lexeme, which the text goes on with from there, or the end of the text. The error is shown
as one line with the message, the text, and a caret that stands below this place. -/
theorem caret_at_failure {t : Text} {e : ParseError} (h : parse t = .error e) :
    e.source = some t ∧ ∃ front rest, t = front ++ rest ∧ e.column? = some (bytes front) ∧
      bytes front ≤ bytes t ∧
      (∀ l, e.lexeme = some l → l ∈ t.lexemes ∧ l.column = bytes front ∧
        (l.text <+: rest ∨ ':' :: l.text <+: rest)) ∧
      (e.lexeme = none → bytes front = bytes t) ∧
      before? (min (bytes front) (bytes t)) t = some front ∧
      '\n' ∉ e.header (bytes front) ∧
      e.display = e.header (bytes front) ++ "\n  ".toList ++ t ++ ['\n'] ++
        List.replicate (2 + front.length) ' ' ++ ['^'] := by
  obtain ⟨hs, front, rest, rfl, hc, hlexeme, hend⟩ := exists_split_of_error h
  have hle : bytes front ≤ bytes (front ++ rest) := by
    rw [bytes_append]
    exact Nat.le_add_right _ _
  have hbefore : before? (min (bytes front) (bytes (front ++ rest))) (front ++ rest) =
      some front := by
    rw [Nat.min_eq_left hle]
    exact before?_bytes front rest
  have hmessage : '\n' ∉ e.message := by
    refine ParseError.newline_not_mem_message fun l hl hmem => ?_
    exact absurd (not_blank_of_mem_scan (hlexeme l hl).1 hmem) (by decide)
  refine ⟨hs, front, rest, rfl, hc, hle, hlexeme, fun hnone => ?_, hbefore,
    ParseError.newline_not_mem_header hmessage _, ParseError.display_eq hs hc hbefore⟩
  rw [hend hnone, List.append_nil]

theorem caret_at_failure_wide_blank :
    let t : Text := ['a', '\u3000', ':', 'b']
    ∃ e, parse t = .error e ∧ e.column? = some 4 ∧ '\n' ∉ e.header 4 ∧
      e.display = e.header 4 ++ "\n  ".toList ++ t ++ ['\n'] ++ List.replicate 4 ' ' ++ ['^'] := by
  intro t
  let e : ParseError := ⟨some ⟨.name, ['b'], 4⟩, [.keyword .and, .keyword .or, .keyword .onAlbums,
    .keyword .byArtists, .keyword .shuffle, .comma], some t⟩
  have hparse : parse t = .error e := by decide +kernel
  obtain ⟨-, front, rest, ht, hc, -, -, -, hbefore, hheader, hdisplay⟩ := caret_at_failure hparse
  have hbytes : bytes front = 4 := (Option.some.inj hc).symm
  rw [hbytes] at hbefore hheader hdisplay
  obtain rfl : ['a', '\u3000'] = front := Option.some.inj hbefore
  exact ⟨e, hparse, rfl, hheader, hdisplay⟩

end Query

end Jukebox
