import Mathlib.Data.List.Basic
import Jukebox.Proofs.Path.Pieces
import Jukebox.Text.Utf8

/-!
What the bytes of a text tell, and what is lost where bytes are none of any text. A text comes back
from its bytes. Bytes that are no UTF-8 come back as another text, but absolute paths stay absolute
and the parts of a path stay apart.
-/

set_option autoImplicit false

namespace Jukebox

open Jukebox.Path

namespace OsText

theorem toNat_ofNat {n : Nat} (h : n < 256) : (UInt8.ofNat n).toNat = n :=
  UInt8.toNat_ofNat_of_lt' h

theorem lossyFrom_cons (s : Option Begun) (b : UInt8) (bs : OsText) :
    lossyFrom s (b :: bs) = (step s b.toNat).1 ++ lossyFrom (step s b.toNat).2 bs := rfl

/-! A character is read from its bytes. -/

theorem lossyFrom_ascii {n : Nat} (h : n < 128) (bs : OsText) :
    lossyFrom none (.ofNat n :: bs) = Char.ofNat n :: lossyFrom none bs := by
  have hstart : step none (UInt8.ofNat n).toNat = ([Char.ofNat n], none) := by
    rw [toNat_ofNat (by omega)]
    exact if_pos h
  rw [lossyFrom_cons, hstart]
  rfl

theorem lossyFrom_begin {n : Nat} {s : Begun} (h : 128 ≤ n ∧ n < 256) (hs : begun? n = some s)
    (bs : OsText) : lossyFrom none (.ofNat n :: bs) = lossyFrom (some s) bs := by
  have hstart : step none (UInt8.ofNat n).toNat = ([], some s) := by
    rw [toNat_ofNat (by omega)]
    change start n = _
    rw [start, if_neg (by omega), hs]
  rw [lossyFrom_cons, hstart]
  rfl

section Continuation

variable {n v low high : Nat} (hn : n < 64) (hlow : low ≤ n + 128) (hhigh : n + 128 ≤ high)
include hn hlow hhigh

theorem lossyFrom_more (missing : Nat) (bs : OsText) :
    lossyFrom (some ⟨v, missing + 2, low, high⟩) (.ofNat (n + 128) :: bs) =
      lossyFrom (some ⟨v * 64 + n, missing + 1, 0x80, 0xBF⟩) bs := by
  have hstep : step (some ⟨v, missing + 2, low, high⟩) (UInt8.ofNat (n + 128)).toNat =
      ([], some ⟨v * 64 + n, missing + 1, 0x80, 0xBF⟩) := by
    have hrest : (n + 128) % 64 = n := by omega
    rw [toNat_ofNat (by omega)]
    change Begun.step _ _ = _
    rw [Begun.step, if_pos ⟨hlow, hhigh⟩, if_neg (by simp), hrest]
    rfl
  rw [lossyFrom_cons, hstep]
  rfl

theorem lossyFrom_last (bs : OsText) :
    lossyFrom (some ⟨v, 1, low, high⟩) (.ofNat (n + 128) :: bs) =
      Char.ofNat (v * 64 + n) :: lossyFrom none bs := by
  have hstep : step (some ⟨v, 1, low, high⟩) (UInt8.ofNat (n + 128)).toNat =
      ([Char.ofNat (v * 64 + n)], none) := by
    have hrest : (n + 128) % 64 = n := by omega
    rw [toNat_ofNat (by omega)]
    change Begun.step _ _ = _
    rw [Begun.step, if_pos ⟨hlow, hhigh⟩, if_pos rfl, hrest]
  rw [lossyFrom_cons, hstep]
  rfl

end Continuation

/-- The bounds of the second of three bytes leave out what takes fewer bytes, and the surrogates. -/
theorem begun?_three {v : Nat} (hlow : 0x800 ≤ v) (hhigh : v ≤ 0xFFFF)
    (hvalid : v < 0xD800 ∨ 0xDFFF < v) :
    ∃ low high, begun? (v / 4096 % 16 + 224) = some ⟨v / 4096, 2, low, high⟩ ∧
      low ≤ v / 64 % 64 + 128 ∧ v / 64 % 64 + 128 ≤ high := by
  by_cases hfirst : v / 4096 = 0
  · exact ⟨0xA0, 0xBF, by rw [hfirst]; rfl, by omega, by omega⟩
  by_cases hsurrogate : v / 4096 = 13
  · exact ⟨0x80, 0x9F, by rw [hsurrogate]; rfl, by omega, by omega⟩
  refine ⟨0x80, 0xBF, ?_, by omega, by omega⟩
  have hvalue : (v / 4096 % 16 + 224) % 16 = v / 4096 := by omega
  rw [begun?, if_neg (by omega), if_neg (by omega), if_neg (by omega), if_pos (by omega), hvalue]

/-- The bounds of the second of four bytes leave out what takes fewer bytes, and what is too great
for a character. -/
theorem begun?_four {v : Nat} (hlow : 0xFFFF < v) (hhigh : v < 0x110000) :
    ∃ low high, begun? (v / 262144 % 8 + 240) = some ⟨v / 262144, 3, low, high⟩ ∧
      low ≤ v / 4096 % 64 + 128 ∧ v / 4096 % 64 + 128 ≤ high := by
  by_cases hfirst : v / 262144 = 0
  · exact ⟨0x90, 0xBF, by rw [hfirst]; rfl, by omega, by omega⟩
  by_cases hlast : v / 262144 = 4
  · exact ⟨0x80, 0x8F, by rw [hlast]; rfl, by omega, by omega⟩
  refine ⟨0x80, 0xBF, ?_, by omega, by omega⟩
  have hvalue : (v / 262144 % 8 + 240) % 8 = v / 262144 := by omega
  rw [begun?, if_neg (by omega), if_neg (by omega), if_neg (by omega), if_neg (by omega),
    if_neg (by omega), if_neg (by omega), if_pos (by omega), hvalue]

theorem lossyFrom_utf8EncodeChar (c : Char) (bs : OsText) :
    lossyFrom none (String.utf8EncodeChar c ++ bs) = c :: lossyFrom none bs := by
  have hchar : Char.ofNat c.val.toNat = c := Char.ofNat_toNat c
  have hvalid : c.val.toNat < 0xD800 ∨ 0xDFFF < c.val.toNat ∧ c.val.toNat < 0x110000 := c.valid
  revert hchar hvalid
  simp only [String.utf8EncodeChar]
  generalize c.val.toNat = v
  intro hchar hvalid
  split_ifs with hone htwo hthree
  · rw [List.singleton_append, lossyFrom_ascii (by omega), hchar]
  · have hbegun : begun? (v / 64 % 32 + 192) = some ⟨v / 64, 1, 0x80, 0xBF⟩ := by
      have hvalue : (v / 64 % 32 + 192) % 32 = v / 64 := by omega
      rw [begun?, if_pos (by omega), hvalue]
    have hv : v / 64 * 64 + v % 64 = v := by omega
    rw [List.cons_append, List.singleton_append, lossyFrom_begin (by omega) hbegun,
      lossyFrom_last (by omega) (by omega) (by omega), hv, hchar]
  · obtain ⟨low, high, hbegun, hlow, hhigh⟩ := begun?_three (v := v) (by omega) hthree (by omega)
    have hv : (v / 4096 * 64 + v / 64 % 64) * 64 + v % 64 = v := by omega
    rw [List.cons_append, List.cons_append, List.singleton_append,
      lossyFrom_begin (by omega) hbegun, lossyFrom_more (by omega) hlow hhigh,
      lossyFrom_last (by omega) (by omega) (by omega), hv, hchar]
  · obtain ⟨low, high, hbegun, hlow, hhigh⟩ := begun?_four (v := v) (by omega) (by omega)
    have hv : ((v / 262144 * 64 + v / 4096 % 64) * 64 + v / 64 % 64) * 64 + v % 64 = v := by omega
    rw [List.cons_append, List.cons_append, List.cons_append, List.singleton_append,
      lossyFrom_begin (by omega) hbegun, lossyFrom_more (by omega) hlow hhigh,
      lossyFrom_more (by omega) (by omega) (by omega),
      lossyFrom_last (by omega) (by omega) (by omega), hv, hchar]

theorem lossy_utf8 (t : Text) : lossy (Text.utf8 t) = t := by
  induction t with
  | nil => rfl
  | cons c t ih =>
    exact (lossyFrom_utf8EncodeChar c (Text.utf8 t)).trans (congrArg (c :: ·) ih)

/-- Bytes that are those of a text. -/
def IsText (p : OsText) : Prop := Text.utf8 (lossy p) = p

theorem isText_utf8 (t : Text) : IsText (Text.utf8 t) := congrArg Text.utf8 (lossy_utf8 t)

/-! No other character is read as a separator. -/

/-- What was begun is too great for a character of one byte. -/
def Begun.Wide (s : Begun) : Prop :=
  2 ≤ s.value ∨ 2 ≤ s.missing ∧ (1 ≤ s.value ∨ 0x90 ≤ s.low ∧ s.high ≤ 0xBF)

theorem wide_begun? {n : Nat} {s : Begun} (h : begun? n = some s) : s.Wide := by
  unfold begun? at h
  unfold Begun.Wide
  split_ifs at h <;> cases h <;> simp <;> omega

theorem ofNat_ne_slash {n : Nat} (h : n ≠ 47) : Char.ofNat n ≠ '/' := by
  intro he
  by_cases hn : n.isValidChar
  · have hslash : (Char.ofNat n).toNat = 47 := congrArg Char.toNat he
    rw [Char.ofNat, dif_pos hn] at hslash
    exact h hslash
  · rw [Char.ofNat, dif_neg hn] at he
    exact absurd he (by decide)

theorem head?_lossyFrom_of_wide {s : Begun} (h : s.Wide) (bs : OsText) :
    (lossyFrom (some s) bs).head? ≠ some '/' := by
  induction bs generalizing s with
  | nil =>
    change some replacement ≠ some '/'
    decide
  | cons b bs ih =>
    rw [lossyFrom_cons]
    change ((s.step b.toNat).1 ++ lossyFrom (s.step b.toNat).2 bs).head? ≠ some '/'
    unfold Begun.step
    split_ifs with hbounds hmissing
    · have hgreat : s.value * 64 + b.toNat % 64 ≠ 47 := by
        rcases h with h | h <;> omega
      simpa using ofNat_ne_slash hgreat
    · refine ih (.inl ?_)
      change 2 ≤ s.value * 64 + b.toNat % 64
      rcases h with h | h <;> omega
    · simp [replacement]

theorem isAbsolute_lossy (p : OsText) : isAbsolute (lossy p) = isAbsolute p := by
  cases p with
  | nil => rfl
  | cons b bs =>
    have hslash : b = slash ↔ b.toNat = 47 := UInt8.toNat_inj.symm
    have hhead : isAbsolute (b :: bs) = decide (b.toNat = 47) := by
      rw [← decide_eq_decide.2 hslash]
      rfl
    rw [hhead, lossy, lossyFrom_cons]
    change isAbsolute ((start b.toNat).1 ++ lossyFrom (start b.toNat).2 bs) = _
    unfold start
    split_ifs with hascii
    · by_cases hb : b.toNat = 47
      · rw [hb]
        rfl
      · rw [decide_eq_false hb]
        exact beq_eq_false_iff_ne.2 fun he => ofNat_ne_slash hb (Option.some.inj he)
    · have hb : b.toNat ≠ 47 := by omega
      rw [decide_eq_false hb]
      cases hs : begun? b.toNat with
      | some s => exact beq_eq_false_iff_ne.2 (head?_lossyFrom_of_wide (wide_begun? hs) bs)
      | none => rfl

end OsText

namespace Text

/-! A separator in the bytes of a text is one in the text. -/

theorem slash_not_mem_utf8EncodeChar {c : Char} (h : c ≠ '/') :
    slash ∉ String.utf8EncodeChar c := by
  have hslash {n : Nat} (hn : n < 256) (h47 : n ≠ 47) : (slash : UInt8) ≠ UInt8.ofNat n := by
    intro he
    have hvalue := congrArg UInt8.toNat he
    rw [OsText.toNat_ofNat hn] at hvalue
    exact h47 hvalue.symm
  have hne : c.val.toNat ≠ 47 := fun hv => h (Char.toNat_inj.1 hv)
  simp only [String.utf8EncodeChar]
  split_ifs <;> simp only [List.mem_cons, List.not_mem_nil, or_false, not_or]
  · exact hslash (by omega) hne
  · exact ⟨hslash (by omega) (by omega), hslash (by omega) (by omega)⟩
  · exact ⟨hslash (by omega) (by omega), hslash (by omega) (by omega),
      hslash (by omega) (by omega)⟩
  · exact ⟨hslash (by omega) (by omega), hslash (by omega) (by omega),
      hslash (by omega) (by omega), hslash (by omega) (by omega)⟩

theorem splitOn_append_of_not_mem {α : Type} [DecidableEq α] {d : α} {as : List α} (h : d ∉ as)
    (bs : List α) : (as ++ bs).splitOn d = (bs.splitOn d).modifyHead (as ++ ·) := by
  induction as with
  | nil => exact (congrFun List.modifyHead_id _).symm
  | cons a as ih =>
    rw [List.mem_cons, not_or] at h
    have hne : (a == d) = false := beq_eq_false_iff_ne.2 (Ne.symm h.1)
    rw [List.cons_append, List.splitOn_cons_eq_if_modifyHead, hne, ih h.2,
      List.modifyHead_modifyHead]
    rfl

theorem splitOn_utf8 (t : Text) : (utf8 t).splitOn slash = (t.splitOn slash).map utf8 := by
  induction t with
  | nil => rfl
  | cons c t ih =>
    have hcons : utf8 (c :: t) = String.utf8EncodeChar c ++ utf8 t := rfl
    rw [hcons]
    by_cases hc : c = '/'
    · subst hc
      have hbytes : String.utf8EncodeChar '/' = [slash] := rfl
      have hcut : ('/' :: t).splitOn slash = [] :: t.splitOn slash :=
        List.splitOn_append_cons_self [] t
      rw [hbytes, hcut, List.map_cons, ← ih]
      exact List.splitOn_append_cons_self [] (utf8 t)
    · have hne : (c == (slash : Char)) = false := beq_eq_false_iff_ne.2 hc
      obtain ⟨q, qs, hq⟩ := List.exists_cons_of_ne_nil (List.splitOn_ne_nil slash t)
      rw [splitOn_append_of_not_mem (slash_not_mem_utf8EncodeChar hc), ih,
        List.splitOn_cons_eq_if_modifyHead, hne, hq]
      rfl

end Text

namespace OsText

theorem isText_of_mem_parts {p q : OsText} (hp : IsText p) (h : q ∈ p.splitOn slash) :
    IsText q := by
  rw [← hp, Text.splitOn_utf8] at h
  obtain ⟨t, -, rfl⟩ := List.mem_map.1 h
  exact isText_utf8 t

theorem isText_of_parts {p : OsText} (h : ∀ q ∈ p.splitOn slash, IsText q) : IsText p := by
  have hparts : ∀ qs : List OsText, (∀ q ∈ qs, IsText q) →
      [slash].intercalate qs = Text.utf8 (['/'].intercalate (qs.map lossy)) := by
    intro qs hqs
    induction qs with
    | nil => rfl
    | cons q qs ih =>
      have hq : Text.utf8 (lossy q) = q := hqs q List.mem_cons_self
      have hrest := ih fun r hr => hqs r (List.mem_cons_of_mem q hr)
      cases qs with
      | nil => simpa using hq.symm
      | cons r rs =>
        have hcons : ['/'].intercalate ((q :: r :: rs).map lossy) =
            lossy q ++ ['/'] ++ ['/'].intercalate ((r :: rs).map lossy) :=
          List.intercalate_cons_cons
        rw [List.intercalate_cons_cons, hrest, hcons, Text.utf8, Text.utf8, List.flatMap_append,
          List.flatMap_append]
        exact congrArg (· ++ _ ++ _) hq.symm
  have htext : [slash].intercalate (p.splitOn slash) = p := List.intercalate_splitOn slash
  rw [← htext, hparts _ h]
  exact isText_utf8 _

/-- Paths with the same names are both texts or neither is. -/
theorem isText_iff_names {p : OsText} : IsText p ↔ ∀ q ∈ (shape p).names, IsText q := by
  rw [names_shape]
  refine ⟨fun hp q hq => isText_of_mem_parts hp (List.mem_filter.1 hq).1,
    fun h => isText_of_parts fun q hq => ?_⟩
  by_cases hidle : idle q
  · rcases idle_iff.1 hidle with rfl | rfl <;> rfl
  · exact h q (List.mem_filter.2 ⟨hq, by simpa using hidle⟩)

end OsText

end Jukebox
