import Jukebox.Library.Comparison

set_option autoImplicit false

namespace Jukebox

theorem toNat_toLower (c : Char) :
    c.toLower.toNat = if 65 ≤ c.toNat ∧ c.toNat ≤ 90 then c.toNat + 32 else c.toNat := by
  by_cases h : 65 ≤ c.toNat ∧ c.toNat ≤ 90
  · have hval : c.val ≥ 'A'.val ∧ c.val ≤ 'Z'.val := h
    have hlower : c.toLower.toNat = (c.val + 32).toNat := congrArg Char.toNat (dif_pos hval)
    rw [hlower, if_pos h, UInt32.toNat_add]
    exact Nat.mod_eq_of_lt (Nat.lt_of_le_of_lt (Nat.add_le_add_right h.2 32) (by decide))
  · have hval : ¬(c.val ≥ 'A'.val ∧ c.val ≤ 'Z'.val) := h
    have hsame : c.toLower = c := dif_neg hval
    rw [hsame, if_neg h]

@[simp] theorem toLower_toLower (c : Char) : c.toLower.toLower = c.toLower := by
  have h : ¬(65 ≤ c.toLower.toNat ∧ c.toLower.toNat ≤ 90) := by
    rw [toNat_toLower]
    split <;> omega
  rw [← Char.toNat_inj, toNat_toLower c.toLower, if_neg h]

theorem toLower_eq_iff {c d : Char} (hd : d.isAlpha = false) : c.toLower = d ↔ c = d := by
  have hclass : d.isAlpha = (decide (d.val ≥ 'A'.val ∧ d.val ≤ 'Z'.val) ||
      (d.val ≥ 'a'.val && d.val ≤ 'z'.val)) := rfl
  rw [hclass, Bool.or_eq_false_iff, decide_eq_false_iff_not] at hd
  have hupper : ¬(65 ≤ d.toNat ∧ d.toNat ≤ 90) := hd.1
  have hlower : ¬(97 ≤ d.toNat ∧ d.toNat ≤ 122) := by simpa [UInt32.le_iff_toNat_le] using hd.2
  rw [← Char.toNat_inj, ← Char.toNat_inj, toNat_toLower]
  split <;> omega

theorem utf8Size_toLower (c : Char) : c.toLower.utf8Size = c.utf8Size := by
  have hsize (c : Char) (h : c.toNat ≤ 127) : c.utf8Size = 1 := if_pos h
  by_cases h : 65 ≤ c.toNat ∧ c.toNat ≤ 90
  · rw [hsize c (by omega), hsize c.toLower (by rw [toNat_toLower, if_pos h]; omega)]
  · have hsame : c.toLower = c := by rw [← Char.toNat_inj, toNat_toLower, if_neg h]
    rw [hsame]

namespace Text

@[simp] theorem fold_nil : fold [] = [] := rfl

@[simp] theorem fold_cons (c : Char) (t : Text) : fold (c :: t) = c.toLower :: fold t := rfl

theorem bytes_fold (t : Text) : bytes (fold t) = bytes t := by
  induction t with
  | nil => rfl
  | cons c t ih => rw [fold_cons, bytes_cons, bytes_cons, utf8Size_toLower, ih]

theorem fold_eq_singleton_iff {t : Text} {d : Char} (hd : d.isAlpha = false) :
    fold t = [d] ↔ t = [d] := by
  cases t with
  | nil => simp
  | cons c t => simp [fold, toLower_eq_iff hd]

theorem splitOn_fold {d : Char} (hd : d.isAlpha = false) (t : Text) :
    (fold t).splitOn d = (t.splitOn d).map fold := by
  induction t with
  | nil => simp
  | cons c t ih =>
    rw [fold_cons, List.splitOn_cons_eq_if_modifyHead, List.splitOn_cons_eq_if_modifyHead, ih]
    obtain ⟨p, ps, hp⟩ := List.exists_cons_of_ne_nil (List.splitOn_ne_nil d t)
    by_cases hc : c = d
    · simp [hc, (toLower_eq_iff hd).2]
    · have hc' : c.toLower ≠ d := fun he => hc ((toLower_eq_iff hd).1 he)
      simp [hp, hc, hc']

end Text

namespace Like

def Item.fold : Item → Item
  | .char c => .char c.toLower
  | i => i

theorem escape_fold (t : Text) : escape (Text.fold t) = Text.fold (escape t) := by
  induction t with
  | nil => rfl
  | cons c t ih =>
    have hspecial : (c.toLower = '%' ∨ c.toLower = '_' ∨ c.toLower = '\\') ↔
        (c = '%' ∨ c = '_' ∨ c = '\\') := by
      rw [toLower_eq_iff (by decide), toLower_eq_iff (by decide), toLower_eq_iff (by decide)]
    rw [Text.fold_cons, escape, escape, ih]
    by_cases hc : c = '%' ∨ c = '_' ∨ c = '\\'
    · rw [if_pos hc, if_pos (hspecial.2 hc)]
      rfl
    · rw [if_neg hc, if_neg (mt hspecial.1 hc)]
      rfl

theorem items_fold (t : Text) : items (Text.fold t) = (items t).map Item.fold := by
  fun_induction items t with
  | case1 => rfl
  | case2 cs ih => exact congrArg (Item.run :: ·) ih
  | case3 cs ih => exact congrArg (Item.one :: ·) ih
  | case4 c cs ih => exact congrArg (Item.char c.toLower :: ·) ih
  | case5 => rfl
  | case6 c cs hrun hone hescape hlast ih =>
    have hbackslash : c ≠ '\\' := by
      rintro rfl
      cases cs with
      | nil => exact hlast rfl rfl
      | cons d cs => exact hescape d cs rfl rfl
    rw [Text.fold_cons, items, ih]
    · rfl
    · exact fun he => hrun ((toLower_eq_iff rfl).1 he)
    · exact fun he => hone ((toLower_eq_iff rfl).1 he)
    · exact fun _ _ he _ => hbackslash ((toLower_eq_iff rfl).1 he)
    · exact fun he _ => hbackslash ((toLower_eq_iff rfl).1 he)

theorem accepts_fold (is : List Item) (v : Text) : accepts (is.map Item.fold) v = accepts is v := by
  induction is generalizing v with
  | nil => rfl
  | cons i is ih =>
    have hends : accepts (is.map Item.fold) = accepts is := funext ih
    cases i with
    | run => exact congrArg (anyEnd · v) hends
    | one => cases v <;> simp [Item.fold, accepts, ih]
    | char c => cases v <;> simp [Item.fold, accepts, ih]
    | never => simp [Item.fold, accepts]

theorem reading_fold (t : Text) : reading (Text.fold t) = Text.fold (reading t) := by
  have hread : (fun c : Char => decide (c ≠ '\x00')) ∘ Char.toLower =
      fun c => decide (c ≠ '\x00') := by
    funext c
    simp [toLower_eq_iff (c := c) (d := '\x00') rfl]
  unfold reading Text.fold
  rw [List.takeWhile_map, hread, List.map_map, List.map_map]
  refine List.map_congr_left fun c _ => ?_
  simp only [Function.comp_apply, toLower_eq_iff (c := c) (d := '\uFFFE') rfl,
    toLower_eq_iff (c := c) (d := '\uFFFF') rfl]
  split <;> rfl

/-- The operator looks at its operand without the case of its letters. -/
theorem test_fold (operand value : Text) : test (Text.fold operand) value = test operand value := by
  rw [test, reading_fold, holds_eq, items_fold, accepts_fold, ← holds_eq, test]

end Like

namespace Pattern

def fold (p : Pattern) : Pattern := { p with body := p.body.fold }

theorem closing_fold (t : Text) : closing t.fold = ((closing t).1.fold, (closing t).2) := by
  have hlast : t.fold.getLast? = some '$' ↔ t.getLast? = some '$' := by
    rw [Text.fold, List.getLast?_map, Option.map_eq_some_iff]
    simp [toLower_eq_iff (d := '$') rfl]
  unfold closing
  by_cases h : t.getLast? = some '$'
  · rw [if_pos h, if_pos (hlast.2 h), Text.fold, Text.fold, List.map_dropLast]
  · rw [if_neg h, if_neg (mt hlast.1 h)]

theorem ofText_fold (t : Text) : ofText t.fold = (ofText t).fold := by
  have hplain (t : Text) : (⟨false, (closing t.fold).1, (closing t.fold).2⟩ : Pattern) =
      fold ⟨false, (closing t).1, (closing t).2⟩ := by
    rw [closing_fold]
    rfl
  cases t with
  | nil => rfl
  | cons c t =>
    by_cases hc : c = '^'
    · rw [hc, Text.fold_cons, (toLower_eq_iff rfl).2 rfl, ofText, ofText, closing_fold]
      rfl
    · have hc' : c.toLower ≠ '^' := mt (toLower_eq_iff rfl).1 hc
      have hofText {d : Char} (u : Text) (hd : d ≠ '^') :
          ofText (d :: u) = ⟨false, (closing (d :: u)).1, (closing (d :: u)).2⟩ := by
        rw [ofText]
        exact fun _ he => hd (List.cons.inj he).1
      rw [Text.fold_cons, hofText _ hc', hofText _ hc]
      exact hplain (c :: t)

@[simp] theorem like_fold (p : Pattern) : p.fold.like = p.like.fold := by
  have hparts : p.fold.parts.map Like.escape = (p.parts.map Like.escape).map Text.fold := by
    rw [parts, fold, Text.splitOn_fold rfl, List.map_map, List.map_map]
    exact List.map_congr_left fun t _ => Like.escape_fold t
  have hjoin (ts : List Text) :
      ['%'].intercalate (ts.map Text.fold) = Text.fold (['%'].intercalate ts) := by
    induction ts with
    | nil => rfl
    | cons t ts ih => cases ts with
      | nil => simp
      | cons u ts => simpa using ih
  rw [like, hparts, hjoin, like, Text.fold_append, Text.fold_append, fold]
  cases p.atStart <;> cases p.atEnd <;> rfl

@[simp] theorem admits_fold (p : Pattern) (value : Text) :
    p.fold.admits value = p.admits value := by
  rw [admits, like_fold, Like.test_fold, admits]

theorem tooLong_fold (p : Pattern) : p.fold.tooLong = p.tooLong := by
  rw [tooLong, Like.tooLong, like_fold, Text.bytes_fold, ← Like.tooLong, ← tooLong]

end Pattern

end Jukebox
