import Jukebox.Proofs.Lexeme.Reading

set_option autoImplicit false

namespace Jukebox

namespace Text

def Blank (t : Text) : Prop := ∀ c ∈ t, isBlank c

theorem Blank.nil : Blank [] := nofun

theorem Blank.cons {c : Char} {t : Text} (hc : isBlank c) (ht : Blank t) : Blank (c :: t) := by
  intro d hd
  cases hd with
  | head => exact hc
  | tail _ hd => exact ht d hd

theorem bytes_pos {t : Text} (h : t ≠ []) : 0 < t.bytes := by
  obtain ⟨c, cs, rfl⟩ := List.exists_cons_of_ne_nil h
  have hc := c.utf8Size_pos
  rw [bytes_cons]
  omega

theorem before?_bytes (front rest : Text) :
    before? (bytes front) (front ++ rest) = some front := by
  induction front with
  | nil => simp [before?]
  | cons c front ih =>
    have hc := c.utf8Size_pos
    obtain ⟨n, hn⟩ : ∃ n, c.utf8Size + bytes front = n + 1 :=
      ⟨_, (Nat.sub_add_cancel (by omega)).symm⟩
    have hrest : n + 1 - c.utf8Size = bytes front := by omega
    rw [bytes_cons, hn, List.cons_append, before?, if_pos (by omega), hrest, ih]
    rfl

end Text

namespace Lexeme

open Text

/-- How a lexeme is spelled in a text. A name may have an escaping colon in front. -/
structure Spells (source : Text) (l : Lexeme) : Prop where
  ne_nil : source ≠ []
  eq_text : source = l.text ∨ l.kind = .name ∧ source = ':' :: l.text

/-- The lexemes of a text that starts at byte `column`, with the blanks between them. -/
inductive Laid : Nat → Text → List Lexeme → Prop where
  | blank {column gap} (hg : Blank gap) : Laid column gap []
  | cons {column gap source rest l ls} (hg : Blank gap) (hl : l.column = column + gap.bytes)
      (hs : Spells source l) (h : Laid (l.column + source.bytes) rest ls) :
      Laid column (gap ++ source ++ rest) (l :: ls)

theorem Laid.skip {c : Char} {column : Nat} {t : Text} {ls : List Lexeme} (hc : isBlank c)
    (h : Laid (column + c.utf8Size) t ls) : Laid column (c :: t) ls := by
  cases h with
  | blank hg => exact .blank (hg.cons hc)
  | @cons _ gap source rest l ls hg hl hs h =>
    have hcolumn : l.column = column + Text.bytes (c :: gap) := by
      rw [hl, bytes_cons, Nat.add_assoc]
    exact .cons (hg.cons hc) hcolumn hs h

theorem laid_scan (column : Nat) (t : Text) : Laid column t (scan column t) := by
  fun_induction scan column t with
  | case1 column => exact .blank .nil
  | case2 column c cs hc ih => exact ih.skip hc
  | case3 column c cs hc r ih =>
    have hc : isBlank c = false := by simpa using hc
    have hs : Spells r.taken ⟨r.kind, r.text, column⟩ :=
      ⟨(of_read hc).taken_ne_nil, (shaped_read (c :: cs)).taken⟩
    have h : Laid column ([] ++ r.taken ++ r.rest) _ := .cons .nil (Nat.add_zero column).symm hs ih
    rwa [List.nil_append, (of_read hc).split] at h

theorem Laid.column_le {column : Nat} {t : Text} {ls : List Lexeme} (h : Laid column t ls) :
    ∀ l ∈ ls, column ≤ l.column := by
  induction h with
  | blank => nofun
  | cons hg hl hs _ ih =>
    intro m hm
    cases hm with
    | head => omega
    | tail _ hm =>
      have hle := ih m hm
      omega

theorem Laid.pairwise {column : Nat} {t : Text} {ls : List Lexeme} (h : Laid column t ls) :
    ls.Pairwise (·.column < ·.column) := by
  induction h with
  | blank => exact .nil
  | @cons column gap source rest l ls hg hl hs h ih =>
    refine .cons (fun m hm => ?_) ih
    have hle := h.column_le m hm
    have hpos := bytes_pos hs.ne_nil
    omega

theorem Laid.split {column : Nat} {t : Text} {ls : List Lexeme} (h : Laid column t ls) :
    ∀ l ∈ ls, ∃ front source rest, t = front ++ source ++ rest ∧
      l.column = column + front.bytes ∧ Spells source l := by
  induction h with
  | blank => nofun
  | @cons column gap source rest l ls hg hl hs h ih =>
    intro m hm
    cases hm with
    | head => exact ⟨gap, source, rest, rfl, hl, hs⟩
    | tail _ hm =>
      obtain ⟨front, source', rest', rfl, hm, hs'⟩ := ih m hm
      refine ⟨gap ++ source ++ front, source', rest', by simp, ?_, hs'⟩
      simp only [bytes_append]
      omega

end Lexeme

end Jukebox
