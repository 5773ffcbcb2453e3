import Jukebox.Proofs.Pattern.Case

/-!
What patterns mean. A value that a pattern describes has the parts of the pattern in it, in their
order and with anything between them; the `LIKE` operand of the pattern holds of these values and no
others, whatever characters the pattern and the value are made of.
-/

set_option autoImplicit false

namespace Jukebox

namespace Like

theorem accepts_chars {s : Text} {is : List Item} {v : Text} :
    accepts (s.map .char ++ is) v ↔ ∃ u w, v = u ++ w ∧ u.fold = s.fold ∧ accepts is w := by
  induction s generalizing v with
  | nil =>
    constructor
    · exact fun h => ⟨[], v, rfl, rfl, h⟩
    · rintro ⟨u, w, rfl, hu, hw⟩
      obtain rfl := List.map_eq_nil_iff.1 hu
      exact hw
  | cons c s ih =>
    cases v with
    | nil =>
      simp only [List.map_cons, List.cons_append, accepts, Bool.false_eq_true, false_iff]
      rintro ⟨u, w, he, hu, -⟩
      obtain ⟨rfl, -⟩ := List.nil_eq_append_iff.1 he
      cases hu
    | cons d v =>
      simp only [List.map_cons, List.cons_append, accepts, Bool.and_eq_true, beq_iff_eq, ih]
      constructor
      · rintro ⟨hc, u, w, rfl, hu, hw⟩
        exact ⟨d :: u, w, rfl, by rw [Text.fold_cons, Text.fold_cons, hc, hu], hw⟩
      · rintro ⟨_ | ⟨e, u⟩, w, he, hu, hw⟩
        · cases hu
        · obtain ⟨rfl, rfl⟩ := List.cons.inj he
          obtain ⟨hc, hu⟩ := List.cons.inj hu
          exact ⟨hc.symm, u, w, rfl, hu, hw⟩

theorem accepts_run {is : List Item} {v : Text} :
    accepts (.run :: is) v ↔ ∃ g w, v = g ++ w ∧ accepts is w := anyEnd_iff

theorem accepts_optional_run {b : Bool} {is : List Item} {v : Text} :
    accepts ((if b then [] else [.run]) ++ is) v ↔
      ∃ g w, v = g ++ w ∧ (b → g = []) ∧ accepts is w := by
  cases b with
  | true =>
    constructor
    · exact fun h => ⟨[], v, rfl, fun _ => rfl, h⟩
    · rintro ⟨g, w, rfl, hg, hw⟩
      rw [hg rfl]
      exact hw
  | false =>
    simp only [Bool.false_eq_true, if_false, List.singleton_append, accepts_run, false_implies,
      true_and]

theorem accepts_nil {v : Text} : accepts [] v ↔ v = [] := List.isEmpty_iff

/-- What the operator takes a character for. -/
def seen (c : Char) : Char := if c = '\uFFFE' ∨ c = '\uFFFF' then '\uFFFD' else c

theorem reading_null (t : Text) : reading ('\x00' :: t) = [] := rfl

theorem reading_cons {c : Char} (h : c ≠ '\x00') (t : Text) :
    reading (c :: t) = seen c :: reading t := by
  simp [reading, seen, h]

/-- Where a text is written character by character so that each is read as the one it is seen as,
the whole is read as what is read of the text, which ends for good at a null character. -/
theorem reading_flatMap {f : Char → Text} (hnull : f '\x00' = ['\x00'])
    (hf : ∀ c t, c ≠ '\x00' → reading (f c ++ t) = f (seen c) ++ reading t) (t rest : Text) :
    reading (t.flatMap f ++ rest) =
      (reading t).flatMap f ++ if '\x00' ∈ t then [] else reading rest := by
  induction t with
  | nil => rfl
  | cons c t ih =>
    by_cases hc : c = '\x00'
    · subst hc
      simp [reading_null, hnull]
    · rw [List.flatMap_cons, List.append_assoc, hf c _ hc, ih, reading_cons hc,
        List.flatMap_cons, List.append_assoc]
      simp [Ne.symm hc]

theorem escape_cons (c : Char) (t : Text) : escape (c :: t) = escape [c] ++ escape t := by
  by_cases h : c = '%' ∨ c = '_' ∨ c = '\\' <;> simp [escape, h]

theorem escape_eq_flatMap (t : Text) : escape t = t.flatMap fun c => escape [c] := by
  induction t with
  | nil => rfl
  | cons c t ih => rw [escape_cons, ih, List.flatMap_cons]

theorem escape_eq_self {t : Text} (h : ∀ c ∈ t, ¬(c = '%' ∨ c = '_' ∨ c = '\\')) :
    escape t = t := by
  induction t with
  | nil => rfl
  | cons c t ih =>
    obtain ⟨hc, ht⟩ := List.forall_mem_cons.1 h
    rw [escape, if_neg hc, ih ht]

theorem reading_escape_singleton {c : Char} (h : c ≠ '\x00') (t : Text) :
    reading (escape [c] ++ t) = escape [seen c] ++ reading t := by
  by_cases hother : c = '\uFFFE' ∨ c = '\uFFFF'
  · rcases hother with rfl | rfl <;> exact reading_cons h t
  · have hseen : seen c = c := if_neg hother
    by_cases hescaped : c = '%' ∨ c = '_' ∨ c = '\\'
    · rcases hescaped with rfl | rfl | rfl <;>
        exact (reading_cons (by decide) _).trans
          (congrArg ('\\' :: ·) (reading_cons (by decide) t))
    · rw [hseen, escape, if_neg hescaped, escape, List.singleton_append, reading_cons h, hseen]
      rfl

theorem reading_escape (t rest : Text) : reading (escape t ++ rest) =
    escape (reading t) ++ if '\x00' ∈ t then [] else reading rest := by
  rw [escape_eq_flatMap t, escape_eq_flatMap (reading t)]
  exact reading_flatMap rfl (fun _ t h => reading_escape_singleton h t) t rest

end Like

namespace Pattern

theorem items_parts (ss : List Text) (rest : Text) :
    Like.items (['%'].intercalate (ss.map Like.escape) ++ rest) =
      [.run].intercalate (ss.map (·.map .char)) ++ Like.items rest := by
  induction ss with
  | nil => rfl
  | cons s ss ih =>
    cases ss with
    | nil => simp [Like.items_escape]
    | cons t ss =>
      simp only [List.map_cons, List.intercalate_cons_cons, List.append_assoc] at ih ⊢
      rw [Like.items_escape, List.singleton_append, Like.items, ih]
      rfl

theorem items_like (p : Pattern) :
    Like.items p.like = (if p.atStart then [] else [.run]) ++
      ([.run].intercalate (p.parts.map (·.map .char)) ++ if p.atEnd then [] else [.run]) := by
  have hend : Like.items (if p.atEnd then [] else ['%']) = if p.atEnd then [] else [.run] := by
    cases p.atEnd <;> rfl
  rw [like, List.append_assoc]
  cases p.atStart with
  | true => exact (items_parts p.parts _).trans (congrArg _ hend)
  | false => exact congrArg (Like.Item.run :: ·) ((items_parts p.parts _).trans (congrArg _ hend))

/-- Whether a value has the parts of the pattern in it, each followed by a gap, with a gap in front
of them all. A caret leaves no gap in front, and a dollar sign none behind. -/
def Describes (p : Pattern) (v : Text) : Prop :=
  ∃ (front : Text) (gaps : List Text), gaps.length = p.parts.length ∧
    (p.atStart → front = []) ∧ (p.atEnd → gaps.getLast? = some []) ∧
    v.fold = front ++ (List.zipWith (fun part gap => part.fold ++ gap) p.parts gaps).flatten

theorem accepts_parts {ss : List Text} (hne : ss ≠ []) (atEnd : Bool) {v : Text} :
    Like.accepts ([.run].intercalate (ss.map (·.map .char)) ++ if atEnd then [] else [.run]) v ↔
      ∃ gaps : List Text, gaps.length = ss.length ∧ (atEnd → gaps.getLast? = some []) ∧
        v.fold = (List.zipWith (fun part gap => part.fold ++ gap) ss gaps).flatten := by
  induction ss generalizing v with
  | nil => exact absurd rfl hne
  | cons s ss ih =>
    cases ss with
    | nil =>
      rw [List.map_cons, List.map_nil, List.intercalate_singleton, Like.accepts_chars]
      constructor
      · rintro ⟨u, w, rfl, hu, hw⟩
        refine ⟨[w.fold], rfl, fun h => ?_, by simp [hu]⟩
        rw [h, if_pos rfl, Like.accepts_nil] at hw
        rw [hw]
        rfl
      · rintro ⟨gaps, hlen, hlast, hv⟩
        obtain ⟨g, rfl⟩ := List.length_eq_one_iff.1 hlen
        obtain ⟨u, w, rfl, hu, hw⟩ := List.map_eq_append_iff.1
          (hv.trans (by simp : _ = s.fold ++ g))
        refine ⟨u, w, rfl, hu, ?_⟩
        cases atEnd with
        | true =>
          obtain rfl : g = [] := by simpa using hlast rfl
          exact Like.accepts_nil.2 (List.map_eq_nil_iff.1 hw)
        | false => exact Like.accepts_run.2 ⟨w, [], (List.append_nil w).symm, rfl⟩
    | cons t ss =>
      rw [List.map_cons, List.map_cons, List.intercalate_cons_cons, List.append_assoc,
        List.append_assoc, Like.accepts_chars, List.singleton_append]
      have hrest {w : Text} := ih (List.cons_ne_nil t ss) (v := w)
      rw [List.map_cons] at hrest
      constructor
      · rintro ⟨u, v', rfl, hu, hv'⟩
        obtain ⟨g, w, rfl, hw⟩ := Like.accepts_run.1 hv'
        obtain ⟨gaps, hlen, hlast, hv⟩ := hrest.1 hw
        refine ⟨g.fold :: gaps, by simp [hlen], fun h => ?_, by simp [hu, hv]⟩
        obtain ⟨g', gaps, rfl⟩ := List.exists_cons_of_length_eq_add_one hlen
        rw [List.getLast?_cons_cons]
        exact hlast h
      · rintro ⟨gaps, hlen, hlast, hv⟩
        obtain ⟨g, gaps, rfl⟩ := List.exists_cons_of_length_eq_add_one hlen
        obtain ⟨g', gaps, rfl⟩ := List.exists_cons_of_length_eq_add_one (Nat.succ.inj hlen)
        rw [List.zipWith_cons_cons, List.flatten_cons, List.append_assoc] at hv
        obtain ⟨u, v', rfl, hu, hv'⟩ := List.map_eq_append_iff.1 hv
        obtain ⟨g, w, rfl, rfl, hw⟩ := List.map_eq_append_iff.1 hv'
        refine ⟨u, g ++ w, rfl, hu, Like.accepts_run.2 ⟨g, w, rfl, hrest.2 ?_⟩⟩
        exact ⟨g' :: gaps, Nat.succ.inj hlen, fun h => hlast h, hw⟩

theorem holds_like_iff (p : Pattern) (v : Text) : Like.holds p.like v ↔ p.Describes v := by
  have hparts : p.parts ≠ [] := List.splitOn_ne_nil '.' p.body
  rw [Like.holds_eq, items_like, Like.accepts_optional_run]
  constructor
  · rintro ⟨g, w, rfl, hg, hw⟩
    obtain ⟨gaps, hlen, hlast, hv⟩ := (accepts_parts hparts p.atEnd).1 hw
    exact ⟨g.fold, gaps, hlen, fun h => by rw [hg h]; rfl, hlast, by rw [Text.fold_append, hv]⟩
  · rintro ⟨front, gaps, hlen, hstart, hlast, hv⟩
    obtain ⟨g, w, rfl, hg, hw⟩ := List.map_eq_append_iff.1 hv
    refine ⟨g, w, rfl, fun h => ?_, (accepts_parts hparts p.atEnd).2 ⟨gaps, hlen, hlast, hw⟩⟩
    rw [hstart h] at hg
    exact List.map_eq_nil_iff.1 hg

def symbol (c : Char) : Text := if c = '.' then ['%'] else Like.escape [c]

theorem intercalate_escape (t : Text) :
    ['%'].intercalate ((t.splitOn '.').map Like.escape) = t.flatMap symbol := by
  induction t with
  | nil => rfl
  | cons c t ih =>
    obtain ⟨s, ss, hs⟩ := List.exists_cons_of_ne_nil (List.splitOn_ne_nil '.' t)
    rw [List.splitOn_cons_eq_if_modifyHead, hs, List.flatMap_cons, ← ih, hs, symbol]
    by_cases hc : c = '.'
    · simp [hc, Like.escape]
    · cases ss <;> simp [hc, Like.escape_cons c s]

theorem like_eq (p : Pattern) : p.like = (if p.atStart then [] else ['%']) ++
    p.body.flatMap symbol ++ if p.atEnd then [] else ['%'] := by
  rw [like, parts, intercalate_escape]

theorem reading_symbol {c : Char} (h : c ≠ '\x00') (t : Text) :
    Like.reading (symbol c ++ t) = symbol (Like.seen c) ++ Like.reading t := by
  by_cases hpoint : c = '.'
  · subst hpoint
    exact Like.reading_cons (by decide) t
  · have hseen : Like.seen c ≠ '.' := by
      unfold Like.seen
      split
      · decide
      · exact hpoint
    rw [symbol, symbol, if_neg hpoint, if_neg hseen, Like.reading_escape_singleton h]

/-- The operator reads the operand of a pattern as that of another pattern, which ends for good
where the first has a null character. -/
def read (p : Pattern) : Pattern :=
  { p with body := Like.reading p.body, atEnd := p.atEnd || '\x00' ∈ p.body }

theorem reading_symbols (t rest : Text) : Like.reading (t.flatMap symbol ++ rest) =
    (Like.reading t).flatMap symbol ++ if '\x00' ∈ t then [] else Like.reading rest :=
  Like.reading_flatMap rfl (fun _ t h => reading_symbol h t) t rest

theorem reading_like (p : Pattern) : Like.reading p.like = p.read.like := by
  have hread : Like.reading (p.body.flatMap symbol ++ if p.atEnd then [] else ['%']) =
      p.read.body.flatMap symbol ++ if p.read.atEnd then [] else ['%'] := by
    rw [reading_symbols, read]
    by_cases hnull : '\x00' ∈ p.body
    · simp [hnull]
    · cases p.atEnd <;> simp [hnull, Like.reading]
  rw [like_eq, like_eq, List.append_assoc, List.append_assoc, ← hread]
  have hstart : p.read.atStart = p.atStart := rfl
  cases h : p.atStart with
  | true => rw [hstart, h, if_pos rfl, List.nil_append, List.nil_append]
  | false =>
    rw [hstart, h]
    exact Like.reading_cons (by decide) _

theorem admits_iff (p : Pattern) (v : Text) : p.admits v ↔ p.read.Describes (Like.reading v) := by
  rw [admits, Like.test, reading_like, holds_like_iff]

theorem count_fold {c : Char} (hc : c.isAlpha = false) (t : Text) :
    t.fold.count c = t.count c := by
  rw [Text.fold, List.count_eq_countP, List.countP_map, List.count_eq_countP]
  refine List.countP_congr fun d _ => ?_
  simp only [Function.comp_apply, beq_iff_eq, toLower_eq_iff hc]

theorem count_parts {c : Char} (hc : c.isAlpha = false) (hpoint : c ≠ '.') {ss gaps : List Text}
    (hlen : gaps.length = ss.length) : (['.'].intercalate ss).count c ≤
      (List.zipWith (fun part gap => part.fold ++ gap) ss gaps).flatten.count c := by
  induction ss generalizing gaps with
  | nil => exact Nat.zero_le _
  | cons s ss ih =>
    obtain ⟨g, gaps, rfl⟩ := List.exists_cons_of_length_eq_add_one hlen
    have hrest := ih (Nat.succ.inj hlen)
    have hfirst : (['.'].intercalate (s :: ss)).count c =
        s.count c + (['.'].intercalate ss).count c := by
      cases ss with
      | nil => simp
      | cons t ss =>
        simp [List.intercalate_cons_cons, List.count_cons_of_ne (Ne.symm hpoint)]
    rw [hfirst, List.zipWith_cons_cons, List.flatten_cons, List.count_append, List.count_append,
      count_fold hc]
    omega

/-- A character of a pattern that is no letter and no point stands for itself: a value has it as
often as the pattern. -/
theorem Describes.count_le {p : Pattern} {v : Text} (h : p.Describes v) {c : Char}
    (hc : c.isAlpha = false) (hpoint : c ≠ '.') : p.body.count c ≤ v.count c := by
  obtain ⟨front, gaps, hlen, -, -, hv⟩ := h
  have hparts := count_parts hc hpoint hlen
  rw [parts, List.intercalate_splitOn] at hparts
  rw [← count_fold hc v, hv, List.count_append]
  exact Nat.le_trans hparts (Nat.le_add_left _ _)

theorem ofText_atStart_iff (t : Text) : (ofText t).atStart ↔ t.head? = some '^' := by
  unfold ofText
  split
  · simp
  · next hne =>
    cases t with
    | nil => simp
    | cons c t => simpa using fun hc => hne t (by rw [hc])

theorem ofText_atEnd_iff (t : Text) : (ofText t).atEnd ↔
    (if (ofText t).atStart then t.tail else t).getLast? = some '$' := by
  have hclosing (t : Text) : (closing t).2 ↔ t.getLast? = some '$' := by
    unfold closing
    split <;> simp_all
  unfold ofText
  split <;> exact hclosing _

/-- A pattern is a text without a caret at its front and a dollar sign at its end, which are its
anchors. Its operand holds of the values that it describes, where the operator reads all of operand
and value, and in any case of the values that it describes as far as both are read. The wildcards
of the operator and its escape stand for nothing but themselves. -/
theorem like_holds_iff_describes (r v : Text) :
    let p := ofText r
    p.text = r ∧ (p.atStart ↔ r.head? = some '^') ∧
      (p.atEnd ↔ (if p.atStart then r.tail else r).getLast? = some '$') ∧
      (Like.holds p.like v ↔ p.Describes v) ∧
      (p.admits v ↔ p.read.Describes (Like.reading v)) ∧
      ∀ c, c = '%' ∨ c = '_' ∨ c = '\\' → Like.holds p.like v → r.count c ≤ v.count c := by
  intro p
  refine ⟨text_ofText r, ofText_atStart_iff r, ofText_atEnd_iff r, p.holds_like_iff v,
    p.admits_iff v, fun c hc hholds => ?_⟩
  have hdescribes := (p.holds_like_iff v).1 hholds
  have hbody : r.count c = p.body.count c := by
    rw [← text_ofText r, text, List.count_append, List.count_append]
    rcases hc with rfl | rfl | rfl <;> cases p.atStart <;> cases p.atEnd <;> simp [p]
  rw [hbody]
  rcases hc with rfl | rfl | rfl <;> exact hdescribes.count_le (by decide) (by decide)

theorem like_holds_percent :
    Like.holds (ofText "^50%._\\$".toList).like "50% of 7_\\".toList ∧
      (ofText "^50%._\\$".toList).Describes "50% of 7_\\".toList ∧
      "^50%._\\$".toList.count '%' ≤ "50% of 7_\\".toList.count '%' := by
  have hholds : Like.holds (ofText "^50%._\\$".toList).like "50% of 7_\\".toList := by decide
  obtain ⟨-, -, -, hmeaning, -, hself⟩ :=
    like_holds_iff_describes "^50%._\\$".toList "50% of 7_\\".toList
  exact ⟨hholds, hmeaning.1 hholds, hself '%' (.inl rfl) hholds⟩

end Pattern

end Jukebox
