import Jukebox.Lexeme.Lexer

set_option autoImplicit false

namespace Jukebox

namespace Text

def run (cs : Text) : Text := cs.takeWhile (!isBlank ·)

def afterRun (cs : Text) : Text := cs.dropWhile (!isBlank ·)

theorem run_append_afterRun (cs : Text) : cs.run ++ cs.afterRun = cs :=
  List.takeWhile_append_dropWhile

theorem wordEnds_iff {cs : Text} : wordEnds cs ↔ cs.run = [] := by
  cases cs with
  | nil => simp [wordEnds, run]
  | cons c cs => cases h : isBlank c <;> simp [wordEnds, run, h]

theorem wordEnds_afterRun (cs : Text) : wordEnds cs.afterRun := by
  induction cs with
  | nil => rfl
  | cons c cs ih => cases h : isBlank c <;> simp_all [afterRun, wordEnds]

theorem wordEnds_append {t u : Text} (ht : wordEnds t) (hu : wordEnds u) : wordEnds (t ++ u) := by
  cases t with
  | nil => exact hu
  | cons c t => exact ht

theorem nameEnds_of_wordEnds {cs : Text} (h : wordEnds cs) : nameEnds cs := by
  cases cs with
  | nil => rfl
  | cons c cs => simp_all [wordEnds, nameEnds]

theorem run_append {w rest : Text} (hw : ∀ c ∈ w, isBlank c = false) :
    run (w ++ rest) = w ++ run rest :=
  List.takeWhile_append_of_pos (by simpa using hw)

theorem afterRun_append {w rest : Text} (hw : ∀ c ∈ w, isBlank c = false) :
    afterRun (w ++ rest) = afterRun rest :=
  List.dropWhile_append_of_pos (by simpa using hw)

theorem afterRun_of_wordEnds {cs : Text} (h : wordEnds cs) : cs.afterRun = cs := by
  have h' := cs.run_append_afterRun
  rwa [wordEnds_iff.1 h, List.nil_append] at h'

theorem takeChar_cons (c : Char) (cs : Text) : takeChar c (c :: cs) = ([c], cs) := by
  simp [takeChar]

theorem takeChar_of_head_ne {c : Char} {cs : Text} (h : cs.head? ≠ some c) :
    takeChar c cs = ([], cs) := by
  cases cs with
  | nil => rfl
  | cons d cs => simp_all [takeChar]

end Text

namespace Keyword

theorem not_blank_of_mem_text {k : Keyword} {c : Char} (h : c ∈ k.text) : isBlank c = false := by
  have hall : (all.all fun k => k.text.all fun c => !isBlank c) = true := by decide
  have hk := List.all_eq_true.1 hall k k.mem_all
  simpa using List.all_eq_true.1 hk c h

theorem ofText?_eq_some_iff {t : Text} {k : Keyword} : ofText? t = some k ↔ k.text = t := by
  constructor
  · intro h
    simpa using List.find?_some h
  · rintro rfl
    exact k.ofText?_text

theorem ofText?_eq_none_iff {t : Text} : ofText? t = none ↔ ∀ k : Keyword, k.text ≠ t := by
  simp [ofText?, mem_all]

end Keyword

namespace Lexeme

open Text

theorem after?_wordEnds_iff {k : Keyword} {cs rest : Text} :
    after? k.text cs = some rest ∧ wordEnds rest ↔ k.text = cs.run ∧ rest = cs.afterRun := by
  rw [after?_eq_some_iff]
  constructor
  · rintro ⟨rfl, h⟩
    have hk : ∀ c ∈ k.text, isBlank c = false := fun c => Keyword.not_blank_of_mem_text
    rw [run_append hk, afterRun_append hk, wordEnds_iff.1 h, afterRun_of_wordEnds h]
    simp
  · rintro ⟨hk, rfl⟩
    exact ⟨hk ▸ cs.run_append_afterRun.symm, cs.wordEnds_afterRun⟩

/-- A keyword is read exactly where the characters up to the next blank spell it. -/
theorem readKeyword?_eq (cs : Text) :
    readKeyword? cs =
      (Keyword.ofText? cs.run).map fun k => ⟨.keyword k, k.text, k.text, cs.afterRun⟩ := by
  unfold readKeyword? Keyword.ofText?
  induction Keyword.all with
  | nil => rfl
  | cons k ks ih =>
    by_cases hk : k.text = cs.run
    · obtain ⟨ha, hw⟩ := after?_wordEnds_iff.2 ⟨hk, rfl⟩
      rw [List.findSome?_cons, ha, List.find?_cons_of_pos (by simpa using hk)]
      simp [hw]
    · have hnone (rest : Text) (ha : after? k.text cs = some rest) : ¬wordEnds rest :=
        fun hw => hk (after?_wordEnds_iff.1 ⟨ha, hw⟩).1
      cases ha : after? k.text cs with
      | none =>
        rw [List.findSome?_cons, ha, List.find?_cons_of_neg (by simpa using hk)]
        exact ih
      | some rest =>
        rw [List.findSome?_cons, ha, List.find?_cons_of_neg (by simpa using hk)]
        simpa [hnone rest ha] using ih

theorem readKeyword?_keyword (k : Keyword) {rest : Text} (h : wordEnds rest) :
    readKeyword? (k.text ++ rest) = some ⟨.keyword k, k.text, k.text, rest⟩ := by
  have hk : ∀ c ∈ k.text, isBlank c = false := fun c => Keyword.not_blank_of_mem_text
  rw [readKeyword?_eq, run_append hk, wordEnds_iff.1 h, List.append_nil, Keyword.ofText?_text,
    afterRun_append hk, afterRun_of_wordEnds h]
  rfl

inductive IsName : Text → Prop where
  | mk {caret core dollar} (hcaret : caret = [] ∨ caret = ['^']) (hcore : core ≠ [])
      (hname : ∀ c ∈ core, isNameChar c) (hdollar : dollar = [] ∨ dollar = ['$']) :
      IsName (caret ++ core ++ dollar)

/-- The text of a lexeme is what was taken for it, but for the colon that escapes a name. -/
structure Shaped (r : Reading) : Prop where
  taken : r.taken = r.text ∨ r.kind = .name ∧ r.taken = ':' :: r.text
  name : r.kind = .name → IsName r.text

theorem IsName.single {c : Char} (h : isNameChar c) : IsName [c] :=
  @IsName.mk [] [c] [] (.inl rfl) (List.cons_ne_nil c []) (by simpa using h) (.inl rfl)

theorem toNat_of_isNameChar {c : Char} (h : isNameChar c) : 45 ≤ c.toNat ∧ c.toNat ≤ 122 := by
  have hclass : isNameChar c = ((decide (c.val ≥ 'A'.val ∧ c.val ≤ 'Z'.val) ||
      (c.val ≥ 'a'.val && c.val ≤ 'z'.val)) || (c.val ≥ '0'.val && c.val ≤ '9'.val) ||
      c == '.' || c == '-') := rfl
  simp only [hclass, Bool.or_eq_true, Bool.and_eq_true, decide_eq_true_eq, beq_iff_eq,
    ← Char.toNat_inj, UInt32.le_iff_toNat_le, ge_iff_le, Char.toNat_val, Char.reduceToNat] at h
  omega

theorem toNat_of_isBlank {c : Char} (h : isBlank c) : c.toNat ≤ 32 ∨ 133 ≤ c.toNat := by
  simp only [isBlank, Bool.or_eq_true, Bool.and_eq_true, decide_eq_true_eq, beq_iff_eq,
    UInt32.le_iff_toNat_le, ← UInt32.toNat_inj, Char.toNat_val, UInt32.reduceToNat] at h
  omega

theorem not_blank_of_isNameChar {c : Char} (h : isNameChar c) : isBlank c = false := by
  rw [Bool.eq_false_iff]
  intro hb
  have hc := toNat_of_isNameChar h
  have hb := toNat_of_isBlank hb
  omega

theorem not_isNameChar_of_nameEnds {c : Char} {cs : Text} (h : nameEnds (c :: cs)) :
    isNameChar c = false := by
  rw [Bool.eq_false_iff]
  intro hc
  simp [nameEnds, not_blank_of_isNameChar hc] at h
  subst h
  exact absurd hc (by decide)

theorem ne_dollar_of_nameEnds {cs : Text} (h : nameEnds cs) : cs.head? ≠ some '$' := by
  cases cs with
  | nil => simp
  | cons c cs =>
    rintro ⟨⟩
    exact absurd h (by simp [nameEnds]; decide)

theorem takeChar_append_of_head_ne {c : Char} {x cs : Text} (hx : x = [] ∨ x = [c])
    (h : cs.head? ≠ some c) : takeChar c (x ++ cs) = (x, cs) := by
  obtain rfl | rfl := hx
  · exact takeChar_of_head_ne h
  · exact takeChar_cons c cs

theorem takeChar_eq_or (c : Char) (cs : Text) :
    (takeChar c cs).1 = [] ∨ (takeChar c cs).1 = [c] := by
  by_cases h : cs.head? = some c
  · obtain ⟨cs', rfl⟩ := List.head?_eq_some_iff.1 h
    exact .inr (by rw [takeChar_cons])
  · exact .inl (by rw [takeChar_of_head_ne h])

theorem head_core_ne {c d : Char} {core cs : Text} (hcore : core ≠ [])
    (hname : ∀ c ∈ core, isNameChar c) (hd : isNameChar d = false)
    (h : (core ++ cs).head? = some c) : c ≠ d := by
  obtain ⟨e, core, rfl⟩ := List.exists_cons_of_ne_nil hcore
  cases h
  rintro rfl
  simp [hd] at hname

/-- A name is read whole where a blank, a comma or the end comes after it, and so is one with an
escaping colon. -/
theorem readName?_append {colon name rest : Text} (hcolon : colon = [] ∨ colon = [':'])
    (hn : IsName name) (hr : nameEnds rest) :
    readName? (colon ++ name ++ rest) = some ⟨.name, name, colon ++ name, rest⟩ := by
  obtain @⟨caret, core, dollar, hcaret, hcore, hname, hdollar⟩ := hn
  have hcaret' : (core ++ (dollar ++ rest)).head? ≠ some '^' := fun h =>
    head_core_ne hcore hname (by decide) h rfl
  have hcolon' : (caret ++ (core ++ (dollar ++ rest))).head? ≠ some ':' := by
    obtain rfl | rfl := hcaret
    · exact fun h => head_core_ne hcore hname (by decide) h rfl
    · simp
  have hstop : ∀ c, (dollar ++ rest).head? = some c → isNameChar c = false := by
    intro c h
    obtain rfl | rfl := hdollar
    · obtain ⟨cs, rfl⟩ := List.head?_eq_some_iff.1 h
      exact not_isNameChar_of_nameEnds hr
    · cases h
      decide
  obtain ⟨htake, hdrop⟩ := takeWhile_dropWhile_append hname hstop
  have hsplit : colon ++ (caret ++ core ++ dollar) ++ rest =
      colon ++ (caret ++ (core ++ (dollar ++ rest))) := by simp
  simp only [readName?, hsplit, takeChar_append_of_head_ne hcolon hcolon',
    takeChar_append_of_head_ne hcaret hcaret', htake, hdrop,
    takeChar_append_of_head_ne hdollar (ne_dollar_of_nameEnds hr)]
  exact if_pos ⟨hcore, hr⟩

theorem exists_of_readName? {cs : Text} {r : Reading} (h : readName? cs = some r) :
    ∃ colon name rest, (colon = [] ∨ colon = [':']) ∧ IsName name ∧ nameEnds rest ∧
      cs = colon ++ name ++ rest ∧ r = ⟨.name, name, colon ++ name, rest⟩ := by
  have hsplit := (of_readName? h).split
  simp only [readName?] at h
  split at h
  · next hc =>
    cases h
    exact ⟨_, _, _, takeChar_eq_or _ _, .mk (takeChar_eq_or _ _) hc.1
      (List.all_eq_true.1 List.all_takeWhile) (takeChar_eq_or _ _), hc.2, hsplit.symm, rfl⟩
  · cases h

theorem IsName.mem {name : Text} (h : IsName name) {c : Char} (hc : c ∈ name) :
    isNameChar c ∨ c = '^' ∨ c = '$' := by
  obtain ⟨rfl | rfl, -, hname, rfl | rfl⟩ := h <;> simp at hc <;> grind

theorem not_blank_of_isName {name : Text} (h : IsName name) : ∀ c ∈ name, isBlank c = false := by
  intro c hc
  rcases h.mem hc with hc | rfl | rfl
  · exact not_blank_of_isNameChar hc
  · decide
  · decide

theorem isLower_of_mem_text {k : Keyword} {c : Char} (h : c ∈ k.text) : c.isLower := by
  have hall : (Keyword.all.all fun k => k.text.all Char.isLower) = true := by decide
  have hk := List.all_eq_true.1 hall k k.mem_all
  exact List.all_eq_true.1 hk c h

/-- Where a word ends before a comma, what comes up to the next blank spells no keyword. -/
theorem ofText?_run_append {w rest : Text} (hw : ∀ c ∈ w, isBlank c = false) (hr : nameEnds rest)
    (hk : wordEnds rest → Keyword.ofText? w = none) :
    Keyword.ofText? (run (w ++ rest)) = none := by
  rw [run_append hw]
  by_cases he : wordEnds rest
  · rw [wordEnds_iff.1 he, List.append_nil]
    exact hk he
  · rw [Keyword.ofText?_eq_none_iff]
    intro k h
    cases rest with
    | nil => exact he rfl
    | cons c cs =>
      obtain rfl : c = ',' := by simp_all [nameEnds, wordEnds]
      have hc : ',' ∈ k.text := by
        rw [h]
        simp [run, show isBlank ',' = false by decide]
      exact absurd (isLower_of_mem_text hc) (by decide)

theorem readKeyword?_of_head {c : Char} {cs : Text} (hc : c.isLower = false) :
    readKeyword? (c :: cs) = none := by
  rw [readKeyword?_eq]
  cases h : Keyword.ofText? (run (c :: cs)) with
  | none => rfl
  | some k =>
    have hk := Keyword.ofText?_eq_some_iff.1 h
    obtain ⟨d, ds, hd⟩ := List.exists_cons_of_ne_nil k.text_ne_nil
    rw [hd] at hk
    have hcs := congrArg List.head? ((congrArg (· ++ afterRun (c :: cs)) hk).trans
      (run_append_afterRun (c :: cs)))
    obtain rfl : d = c := by simpa using hcs
    have hl : d.isLower := isLower_of_mem_text (by rw [hd]; exact List.mem_cons_self)
    rw [hc] at hl
    cases hl

theorem read_keyword (k : Keyword) {rest : Text} (h : wordEnds rest) :
    read (k.text ++ rest) = ⟨.keyword k, k.text, k.text, rest⟩ := by
  rw [read, readKeyword?_keyword k h]
  rfl

theorem read_comma (rest : Text) : read (',' :: rest) = ⟨.comma, [','], [','], rest⟩ := by
  rw [read, readKeyword?_of_head (by decide)]
  rfl

theorem IsName.head_ne {name cs : Text} (h : IsName name) {c : Char} (hc : isNameChar c = false)
    (hcaret : c ≠ '^') : (name ++ cs).head? ≠ some c := by
  obtain ⟨rfl | rfl, hcore, hname, -⟩ := h
  · intro hh
    rw [List.nil_append, List.append_assoc] at hh
    exact head_core_ne hcore hname hc hh rfl
  · rintro ⟨⟩
    exact hcaret rfl

theorem readComma?_of_head_ne {cs : Text} (h : cs.head? ≠ some ',') : readComma? cs = none := by
  unfold readComma?
  split
  · simp at h
  · rfl

theorem read_name {name rest : Text} (hn : IsName name) (hr : nameEnds rest)
    (hk : wordEnds rest → Keyword.ofText? name = none) :
    read (name ++ rest) = ⟨.name, name, name, rest⟩ := by
  have h := readName?_append (.inl rfl) hn hr
  rw [List.nil_append] at h
  rw [read, readKeyword?_eq, ofText?_run_append (not_blank_of_isName hn) hr hk,
    readComma?_of_head_ne (hn.head_ne (by decide) (by decide)), h]
  rfl

theorem read_escaped {name rest : Text} (hn : IsName name) (hr : nameEnds rest) :
    read (':' :: name ++ rest) = ⟨.name, name, ':' :: name, rest⟩ := by
  have h : readName? (':' :: (name ++ rest)) = some ⟨.name, name, ':' :: name, rest⟩ :=
    readName?_append (.inr rfl) hn hr
  rw [read, List.cons_append, readKeyword?_of_head (by decide),
    readComma?_of_head_ne (by simp), h]
  rfl

theorem scan_nil (column : Nat) : scan column [] = [] := by rw [scan]

theorem scan_blank {c : Char} (h : isBlank c) (column : Nat) (cs : Text) :
    scan column (c :: cs) = scan (column + c.utf8Size) cs := by
  rw [scan, dif_pos h]

theorem scan_of_read {cs : Text} {r : Reading} (hw : wordEnds cs = false) (hr : read cs = r)
    (column : Nat) :
    scan column cs = ⟨r.kind, r.text, column⟩ :: scan (column + bytes r.taken) r.rest := by
  subst hr
  cases cs with
  | nil => cases hw
  | cons c cs =>
    have hc : ¬isBlank c := by simpa [wordEnds] using hw
    rw [scan, dif_neg hc]

theorem shaped_read (cs : Text) : Shaped (read cs) := by
  unfold read
  cases hk : readKeyword? cs with
  | some r =>
    rw [readKeyword?_eq] at hk
    obtain ⟨k, -, rfl⟩ := Option.map_eq_some_iff.1 hk
    exact ⟨.inl rfl, nofun⟩
  | none =>
    cases hc : readComma? cs with
    | some r =>
      unfold readComma? at hc
      split at hc
      · cases hc
        exact ⟨.inl rfl, nofun⟩
      · cases hc
    | none =>
      cases hn : readName? cs with
      | some r =>
        obtain ⟨colon, name, rest, rfl | rfl, hname, -, -, rfl⟩ := exists_of_readName? hn
        · exact ⟨.inl rfl, fun _ => hname⟩
        · exact ⟨.inr ⟨rfl, rfl⟩, fun _ => hname⟩
      | none => exact ⟨.inl rfl, nofun⟩

theorem isName_of_mem_scan {column : Nat} {cs : Text} {l : Lexeme} (h : l ∈ scan column cs)
    (hl : l.kind = .name) : IsName l.text := by
  fun_induction scan column cs with
  | case1 => cases h
  | case2 column c cs hc ih => exact ih h
  | case3 column c cs hc r ih =>
    cases h with
    | head => exact (shaped_read (c :: cs)).name hl
    | tail _ h => exact ih h

end Lexeme

end Jukebox
