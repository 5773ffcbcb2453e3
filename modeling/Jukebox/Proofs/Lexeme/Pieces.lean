import Mathlib.Data.List.SplitBy
import Jukebox.Proofs.Lexeme.Layout

/-!
A text by its pieces. Cut it into stretches with and without blanks, and those without at their
commas: each piece gives one lexeme, up to the first that spells none.
-/

set_option autoImplicit false

namespace Jukebox

def Text.stretches (t : Text) : List Text := t.splitBy fun c d => isBlank c == isBlank d

namespace Lexeme

open Text

instance : DecidablePred IsName := fun t =>
  decidable_of_iff (readName? t = some ⟨.name, t, t, []⟩) <| by
    constructor
    · intro h
      obtain ⟨colon, name, rest, -, hn, -, -, hr⟩ := exists_of_readName? h
      rwa [show t = name from congrArg Reading.text hr]
    · intro h
      simpa using readName?_append (.inl rfl) h (rfl : nameEnds [])

def nameOf? : Text → Option Text
  | ':' :: name => if IsName name then some name else none
  | name => if IsName name then some name else none

/-- The lexeme that a piece spells. Only the last piece of a stretch can be a keyword. -/
def ofPiece? (last : Bool) (piece : Text) : Option (Kind × Text) :=
  ((if last then Keyword.ofText? piece else none).map fun k => (.keyword k, piece)).or
    ((nameOf? piece).map fun name => (.name, name))

/-- The lexemes of a stretch that starts at byte `column`, from its pieces between commas. -/
def ofPieces (column : Nat) : List Text → List Lexeme
  | [] => []
  | piece :: more =>
    let after := if more = [] then [] else
      ⟨.comma, [','], column + bytes piece⟩ :: ofPieces (column + bytes piece + 1) more
    if piece = [] then after
    else match ofPiece? (more = []) piece with
      | some (kind, text) => ⟨kind, text, column⟩ :: after
      | none => [⟨.invalid, Text.join "," (piece :: more), column⟩]

def ofStretches (column : Nat) : List Text → List Lexeme
  | [] => []
  | w :: ws =>
    (if w.all isBlank then [] else ofPieces column (w.splitOn ',')) ++
      ofStretches (column + bytes w) ws

theorem nameOf?_eq_some_iff {p name : Text} :
    nameOf? p = some name ↔ IsName name ∧ (p = name ∨ p = ':' :: name) := by
  constructor
  · intro h
    unfold nameOf? at h
    split at h
    · simp only [Option.ite_none_right_eq_some, Option.some.injEq] at h
      obtain ⟨hn, rfl⟩ := h
      exact ⟨hn, .inr rfl⟩
    · simp only [Option.ite_none_right_eq_some, Option.some.injEq] at h
      obtain ⟨hn, rfl⟩ := h
      exact ⟨hn, .inl rfl⟩
  · intro ⟨hn, h⟩
    obtain rfl | rfl := h
    · have hcolon : (p ++ []).head? ≠ some ':' := hn.head_ne (by decide) (by decide)
      rw [List.append_nil] at hcolon
      unfold nameOf?
      split
      · exact absurd rfl hcolon
      · rw [if_pos hn]
    · rw [nameOf?, if_pos hn]

def isPlain (c : Char) : Bool := !isBlank c && c != ','

theorem not_blank_of_isPlain {c : Char} (h : isPlain c) : isBlank c = false := by
  simp only [isPlain, Bool.and_eq_true, Bool.not_eq_true'] at h
  exact h.1

theorem nameEnds_iff {cs : Text} : nameEnds cs ↔ cs.takeWhile isPlain = [] := by
  cases cs with
  | nil => simp [nameEnds]
  | cons c cs => simp [nameEnds, isPlain, List.takeWhile_cons, or_iff_not_imp_left]

theorem takeWhile_piece {p tail : Text} (hp : ∀ c ∈ p, isPlain c) (ht : nameEnds tail) :
    (p ++ tail).takeWhile isPlain = p := by
  rw [List.takeWhile_append_of_pos hp, nameEnds_iff.1 ht, List.append_nil]

theorem isPlain_of_isName {name : Text} (h : IsName name) : ∀ c ∈ name, isPlain c := by
  intro c hc
  have hcomma : c ≠ ',' := by
    intro hcomma
    subst hcomma
    exact absurd (h.mem hc) (by decide)
  simp [isPlain, not_blank_of_isName h c hc, hcomma]

theorem readName?_piece {p tail : Text} (hp : ∀ c ∈ p, isPlain c) (ht : nameEnds tail) :
    readName? (p ++ tail) = (nameOf? p).map fun name => ⟨.name, name, p, tail⟩ := by
  cases hn : nameOf? p with
  | some name =>
    obtain ⟨hname, rfl | rfl⟩ := nameOf?_eq_some_iff.1 hn
    · exact readName?_append (.inl rfl) hname ht
    · exact readName?_append (.inr rfl) hname ht
  | none =>
    cases hr : readName? (p ++ tail) with
    | none => rfl
    | some r =>
      -- A name that is read ends where the piece ends, so that the piece spells it.
      obtain ⟨colon, name, rest, hcolon, hname, hrest, heq, -⟩ := exists_of_readName? hr
      have hplain : ∀ c ∈ colon ++ name, isPlain c := by
        intro c hc
        rcases List.mem_append.1 hc with hc | hc
        · obtain rfl | rfl := hcolon
          · cases hc
          · rw [List.mem_singleton.1 hc]
            decide
        · exact isPlain_of_isName hname c hc
      have hpiece : p = colon ++ name := by
        rw [← takeWhile_piece hp ht, heq, takeWhile_piece hplain hrest]
      have hsome : nameOf? p = some name :=
        nameOf?_eq_some_iff.2 ⟨hname, hcolon.imp (fun h => by simp [hpiece, h]) fun h => by
          simp [hpiece, h]⟩
      rw [hn] at hsome
      cases hsome

/-- A piece is read as the lexeme that it spells. What comes after it tells if it was the last. -/
theorem read_piece {p tail : Text} (hne : p ≠ []) (hp : ∀ c ∈ p, isPlain c) (ht : nameEnds tail) :
    read (p ++ tail) = match ofPiece? (wordEnds tail) p with
      | some (kind, text) => ⟨kind, text, p, tail⟩
      | none => readInvalid (p ++ tail) := by
  have hblank : ∀ c ∈ p, isBlank c = false := fun c hc => not_blank_of_isPlain (hp c hc)
  have hcomma : readComma? (p ++ tail) = none := by
    obtain ⟨c, cs, rfl⟩ := List.exists_cons_of_ne_nil hne
    refine readComma?_of_head_ne fun h => ?_
    cases h
    exact absurd (hp ',' List.mem_cons_self) (by decide)
  cases hk : (if wordEnds tail then Keyword.ofText? p else none) with
  | some k =>
    obtain ⟨hw, hk⟩ : wordEnds tail ∧ Keyword.ofText? p = some k := by simpa using hk
    obtain rfl := Keyword.ofText?_eq_some_iff.1 hk
    rw [read_keyword k hw, ofPiece?, if_pos hw, hk]
    rfl
  | none =>
    have hnone : readKeyword? (p ++ tail) = none := by
      rw [readKeyword?_eq, ofText?_run_append hblank ht fun hw => by simpa [hw] using hk]
      rfl
    rw [read, hnone, hcomma, readName?_piece hp ht, ofPiece?, hk]
    cases nameOf? p <;> rfl

theorem scan_piece {p tail : Text} (hne : p ≠ []) (hp : ∀ c ∈ p, isPlain c) (ht : nameEnds tail)
    (column : Nat) :
    scan column (p ++ tail) = match ofPiece? (wordEnds tail) p with
      | some (kind, text) => ⟨kind, text, column⟩ :: scan (column + bytes p) tail
      | none => ⟨.invalid, run (p ++ tail), column⟩ ::
          scan (column + bytes (run (p ++ tail))) (afterRun (p ++ tail)) := by
  have hw : wordEnds (p ++ tail) = false := by
    obtain ⟨c, cs, rfl⟩ := List.exists_cons_of_ne_nil hne
    exact not_blank_of_isPlain (hp c List.mem_cons_self)
  rw [scan_of_read hw (read_piece hne hp ht)]
  cases ofPiece? (wordEnds tail) p <;> rfl

theorem scan_word {w rest : Text} (hw : ∀ c ∈ w, isBlank c = false) (hr : wordEnds rest)
    (column : Nat) :
    scan column (w ++ rest) = ofPieces column (w.splitOn ',') ++ scan (column + bytes w) rest := by
  -- By the first comma: what comes after it is a shorter stretch of the same kind.
  induction hn : w.length using Nat.strong_induction_on generalizing w column with
  | h n ih =>
    have hrun : run (w ++ rest) = w := by
      rw [run_append hw, wordEnds_iff.1 hr, List.append_nil]
    have hafter : afterRun (w ++ rest) = rest := by
      rw [afterRun_append hw, afterRun_of_wordEnds hr]
    have hplain {p : Text} (hp : p ⊆ w) (hcomma : ',' ∉ p) : ∀ c ∈ p, isPlain c := by
      intro c hc
      have hne : c ≠ ',' := fun he => hcomma (he ▸ hc)
      simp [isPlain, hw c (hp hc), hne]
    by_cases hcomma : ',' ∈ w
    · obtain ⟨p, v, rfl, hp⟩ := List.eq_append_cons_of_mem hcomma
      have hv : ∀ c ∈ v, isBlank c = false := fun c hc => hw c (by simp [hc])
      have hlt : v.length < n := by
        rw [← hn, List.length_append, List.length_cons]
        omega
      have hsplit := List.splitOn_append_cons_self_of_not_mem hp v
      have hmore := List.splitOn_ne_nil ',' v
      have hjoin : Text.join "," (p :: v.splitOn ',') = p ++ ',' :: v := by
        rw [← hsplit]
        exact List.intercalate_splitOn ','
      have hcommas : scan (column + bytes p) (',' :: (v ++ rest)) =
          ⟨.comma, [','], column + bytes p⟩ :: ofPieces (column + bytes p + 1) (v.splitOn ',') ++
            scan (column + bytes (p ++ ',' :: v)) rest := by
        have hend : column + bytes (p ++ ',' :: v) = column + bytes p + 1 + bytes v := by
          have hcomma : ','.utf8Size = 1 := by decide
          rw [bytes_append, bytes_cons, hcomma]
          omega
        rw [scan_of_read rfl (read_comma (v ++ rest)), hend, List.cons_append]
        exact congrArg _ (ih v.length hlt hv (column + bytes p + 1) rfl)
      rw [hsplit, ofPieces, if_neg hmore, hjoin, decide_eq_false hmore]
      by_cases hne : p = []
      · subst hne
        exact hcommas
      · have hlast : wordEnds (',' :: (v ++ rest)) = false := rfl
        rw [List.append_assoc, List.cons_append] at hrun hafter ⊢
        rw [scan_piece hne (hplain (by simp) hp) rfl, hrun, hafter, hlast, hcommas, if_neg hne]
        cases ofPiece? false p <;> rfl
    · have hsplit : w.splitOn ',' = [w] := List.splitOn_eq_singleton hcomma
      have hjoin : Text.join "," [w] = w := by simp [Text.join]
      rw [hsplit, ofPieces, hjoin]
      by_cases hne : w = []
      · subst hne
        rfl
      · rw [scan_piece hne (hplain (List.Subset.refl w) hcomma) (nameEnds_of_wordEnds hr), hr, hrun,
          hafter, if_neg hne, decide_eq_true rfl]
        cases ofPiece? true w <;> rfl

theorem scan_append_of_blank {w : Text} (hw : Blank w) (rest : Text) (column : Nat) :
    scan column (w ++ rest) = scan (column + bytes w) rest := by
  induction w generalizing column with
  | nil => rfl
  | cons c w ih =>
    have ih := ih (fun d hd => hw d (List.mem_cons_of_mem c hd)) (column + c.utf8Size)
    rw [List.cons_append, scan_blank (hw c List.mem_cons_self), ih, bytes_cons, Nat.add_assoc]

theorem isBlank_eq_of_isChain {c : Char} {w : Text}
    (h : (c :: w).IsChain fun c d => isBlank c == isBlank d) :
    ∀ d ∈ c :: w, isBlank d = isBlank c := by
  induction w generalizing c with
  | nil => simp
  | cons e w ih =>
    obtain ⟨he, h⟩ := List.isChain_cons_cons.1 h
    have he : isBlank c = isBlank e := by simpa using he
    intro d hd
    cases hd with
    | head => rfl
    | tail _ hd => exact (ih h d hd).trans he.symm

/-- The stretches that a text is cut into: none is empty, each is of one kind, and the kinds take
turns. -/
structure AreStretches (ws : List Text) : Prop where
  ne_nil : [] ∉ ws
  isChain : ∀ w ∈ ws, w.IsChain fun c d => isBlank c == isBlank d
  turns : ws.IsChain fun v w => ∃ hv hw, (isBlank (v.getLast hv) == isBlank (w.head hw)) = false

theorem areStretches (t : Text) : AreStretches t.stretches ∧ t.stretches.flatten = t := by
  obtain ⟨ht, hne, hchain, hturns⟩ := List.splitBy_eq_iff.1 (rfl : t.stretches = t.stretches)
  exact ⟨⟨hne, hchain, hturns⟩, ht.symm⟩

theorem AreStretches.tail {w : Text} {ws : List Text} (h : AreStretches (w :: ws)) :
    AreStretches ws :=
  ⟨fun hn => h.ne_nil (List.mem_cons_of_mem w hn),
    fun v hv => h.isChain v (List.mem_cons_of_mem w hv), h.turns.tail⟩

theorem AreStretches.head {w : Text} {ws : List Text} (h : AreStretches (w :: ws)) :
    Blank w ∨ w ≠ [] ∧ (∀ c ∈ w, isBlank c = false) ∧ wordEnds ws.flatten := by
  cases w with
  | nil => exact absurd List.mem_cons_self h.ne_nil
  | cons c w =>
    have hall := isBlank_eq_of_isChain (h.isChain _ List.mem_cons_self)
    cases hc : isBlank c with
    | true => exact .inl fun d hd => (hall d hd).trans hc
    | false =>
      refine .inr ⟨List.cons_ne_nil c w, fun d hd => (hall d hd).trans hc, ?_⟩
      cases ws with
      | nil => rfl
      | cons v ws =>
        obtain ⟨⟨hw, hv, hturn⟩, -⟩ := List.isChain_cons_cons.1 h.turns
        obtain ⟨d, v, rfl⟩ := List.exists_cons_of_ne_nil hv
        rw [hall _ (List.getLast_mem hw), hc] at hturn
        simpa [wordEnds] using hturn

theorem scan_stretches {ws : List Text} (h : AreStretches ws) {rest : Text} (hr : wordEnds rest)
    (column : Nat) :
    scan column (ws.flatten ++ rest) =
      ofStretches column ws ++ scan (column + bytes ws.flatten) rest := by
  induction ws generalizing column with
  | nil => rfl
  | cons w ws ih =>
    have ih := ih h.tail (column + bytes w)
    rw [Nat.add_assoc, ← bytes_append] at ih
    rw [ofStretches, List.flatten_cons, List.append_assoc, List.append_assoc]
    obtain hw | ⟨hne, hw, hends⟩ := h.head
    · rw [scan_append_of_blank hw, ih, if_pos (List.all_eq_true.2 hw), List.nil_append]
    · have hall : ¬w.all isBlank := by
        obtain ⟨c, w, rfl⟩ := List.exists_cons_of_ne_nil hne
        simp [hw c List.mem_cons_self]
      rw [scan_word hw (wordEnds_append hends hr), ih, if_neg hall]

theorem scan_eq_ofStretches (column : Nat) (t : Text) :
    scan column t = ofStretches column t.stretches := by
  obtain ⟨hws, ht⟩ := areStretches t
  have h := scan_stretches hws (rfl : wordEnds []) column
  rwa [ht, List.append_nil, scan_nil, List.append_nil] at h

theorem scan_append {rest : Text} (hr : wordEnds rest) (column : Nat) (t : Text) :
    scan column (t ++ rest) = scan column t ++ scan (column + bytes t) rest := by
  obtain ⟨hws, ht⟩ := areStretches t
  have h := scan_stretches hws hr column
  rwa [ht, ← scan_eq_ofStretches] at h

def shift (n : Nat) (l : Lexeme) : Lexeme := { l with column := n + l.column }

theorem scan_add (n column : Nat) (t : Text) :
    scan (n + column) t = (scan column t).map (shift n) := by
  fun_induction scan column t with
  | case1 column => rw [scan_nil, List.map_nil]
  | case2 column c cs hc ih => rw [scan_blank hc, Nat.add_assoc, ih]
  | case3 column c cs hc r ih =>
    have hw : wordEnds (c :: cs) = false := by simpa [wordEnds] using hc
    rw [scan_of_read hw rfl, Nat.add_assoc, ih]
    rfl

end Lexeme

open Lexeme Text

theorem Text.lexemes_append {gap : Text} (hne : gap ≠ []) (hgap : Blank gap) (t more : Text) :
    (t ++ gap ++ more).lexemes = t.lexemes ++ more.lexemes.map (shift (bytes (t ++ gap))) := by
  have hends : wordEnds (gap ++ more) := by
    obtain ⟨c, gap, rfl⟩ := List.exists_cons_of_ne_nil hne
    exact hgap c List.mem_cons_self
  have hshift := scan_add (bytes (t ++ gap)) 0 more
  rw [lexemes, List.append_assoc, scan_append hends, scan_append_of_blank hgap, Nat.zero_add,
    ← bytes_append]
  exact congrArg (scan 0 t ++ ·) hshift

/-- The lexemes of a text are those of its pieces. Some rule reads on wherever the text does, so
they lie in it one after the other with only blanks around them, and a blank parts the lexemes of
what is in front of it from those of what comes after. -/
theorem Text.lexemes_eq_ofStretches (t : Text) :
    t.lexemes = ofStretches 0 t.stretches ∧
      (∀ front c rest, t = front ++ c :: rest →
        isBlank c ∨ Reading.Of (c :: rest) (read (c :: rest))) ∧
      Laid 0 t t.lexemes ∧
      t.lexemes.Pairwise (·.column < ·.column) ∧
      (∀ l ∈ t.lexemes, ∃ front source rest, t = front ++ source ++ rest ∧
        before? l.column t = some front ∧ Spells source l) ∧
      ∀ gap more, gap ≠ [] → Blank gap →
        (t ++ gap ++ more).lexemes = t.lexemes ++ more.lexemes.map (shift (bytes (t ++ gap))) := by
  have hlaid : Laid 0 t t.lexemes := laid_scan 0 t
  refine ⟨scan_eq_ofStretches 0 t, ?_, hlaid, hlaid.pairwise, ?_, fun gap more hne hgap =>
    lexemes_append hne hgap t more⟩
  · intro front c rest ht
    cases hc : isBlank c with
    | true => exact .inl rfl
    | false => exact .inr (of_read hc)
  · intro l hl
    obtain ⟨front, source, rest, rfl, hcolumn, hs⟩ := hlaid.split l hl
    refine ⟨front, source, rest, rfl, ?_, hs⟩
    rw [hcolumn, Nat.zero_add, List.append_assoc]
    exact before?_bytes front (source ++ rest)

end Jukebox
