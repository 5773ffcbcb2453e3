import Jukebox.Proofs.Library.Additions
import Jukebox.Proofs.Query.Completion

set_option autoImplicit false

namespace Jukebox

open Catalogue Lexeme

def Track.values (t : Track) : NameList → List Text
  | .titles => [t.title]
  | .albums => t.album.toList
  | .artists => t.artists

namespace Like

/-- Whether a value starts with a text, as far as the operator reads them. A text with a null
character in it is read up to there, and nothing may follow it in the value. -/
def Starts (start v : Text) : Prop :=
  if '\x00' ∈ start then (reading v).fold = (reading start).fold
  else (reading start).fold <+: (reading v).fold

/-- All of the text is read, as it is. -/
def Plain (t : Text) : Prop := ∀ c ∈ t, c ≠ '\x00' ∧ c ≠ '\uFFFE' ∧ c ≠ '\uFFFF'

instance (t : Text) : Decidable (Plain t) := List.decidableBAll _ t

theorem Plain.reading {t : Text} (h : Plain t) : Like.reading t = t := by
  induction t with
  | nil => rfl
  | cons c t ih =>
    obtain ⟨⟨hnull, hother⟩, ht⟩ := List.forall_mem_cons.1 h
    rw [reading_cons hnull, ih ht, seen, if_neg (not_or.2 hother)]

theorem Plain.null_not_mem {t : Text} (h : Plain t) : '\x00' ∉ t := fun hm => (h _ hm).1 rfl

theorem starts_plain {start v : Text} (hstart : Plain start) (hv : Plain v) :
    Starts start v ↔ start.fold <+: v.fold := by
  rw [Starts, if_neg hstart.null_not_mem, hstart.reading, hv.reading]

theorem test_startingWith (start v : Text) :
    test (Library.startingWith start) v ↔ Starts start v := by
  have hitems (rest : Text) : items (escape (reading start) ++ rest) =
      (reading start).map .char ++ items rest := items_escape _ rest
  rw [test, Library.startingWith, reading_escape, holds_eq, hitems, accepts_chars, Starts]
  by_cases hnull : '\x00' ∈ start
  · rw [if_pos hnull, if_pos hnull]
    constructor
    · rintro ⟨u, w, hv, hu, hw⟩
      obtain rfl := accepts_nil.1 hw
      rw [hv, List.append_nil, hu]
    · exact fun h => ⟨reading v, [], (List.append_nil _).symm, h, rfl⟩
  · rw [if_neg hnull, if_neg hnull]
    constructor
    · rintro ⟨u, w, hv, hu, -⟩
      exact ⟨w.fold, by rw [hv, Text.fold_append, hu]⟩
    · rintro ⟨r, hr⟩
      obtain ⟨u, w, hv, hu, -⟩ := List.map_eq_append_iff.1 hr.symm
      exact ⟨u, w, hv, hu, accepts_run.2 ⟨w, [], (List.append_nil w).symm, rfl⟩⟩

theorem starts_nil (v : Text) : Starts [] v := List.nil_prefix

end Like

namespace Catalogue

def valuesOf (c : Catalogue) (r : TrackRow) : NameList → List Text
  | .titles => [r.title]
  | .albums => (c.albumsOf r).map Prod.fst
  | .artists => c.namesOf r

theorem Holds.valuesOf {c : Catalogue} {path : Text} {t : Track} {r : TrackRow}
    (h : c.Holds path t r) (list : NameList) : c.valuesOf r list = t.values list := by
  cases list with
  | titles => rw [Catalogue.valuesOf, h.title, Track.values]
  | albums =>
    rw [Catalogue.valuesOf, h.albums, Track.values, List.map_map]
    exact List.map_id _
  | artists => rw [Catalogue.valuesOf, h.artists, Track.values]

end Catalogue

namespace Library

theorem nodup_eraseDups (vs : List Text) : vs.eraseDups.Nodup := by
  induction h : vs.length using Nat.strongRecOn generalizing vs with
  | ind n ih =>
    cases vs with
    | nil => exact List.nodup_nil
    | cons v vs =>
      have hlen := List.length_filter_le (fun w => !w == v) vs
      rw [List.length_cons] at h
      rw [List.eraseDups_cons, List.nodup_cons, List.mem_eraseDups, List.mem_filter]
      exact ⟨fun hv => by simp at hv, ih _ (by omega) _ rfl⟩

variable {home : OsText} {ts : List Track}

theorem mem_column {lib : Library} (h : lib.catalogue.Consistent) {list : NameList} {v : Text} :
    v ∈ lib.column list ↔ ∃ r ∈ lib.catalogue.tracks, v ∈ lib.catalogue.valuesOf r list := by
  cases list with
  | titles => simp only [column, valuesOf, List.mem_map, List.mem_singleton, eq_comm]
  | albums =>
    simp only [column, valuesOf, albumsOf, List.map_map, List.mem_map]
    constructor
    · rintro ⟨a, ha, rfl⟩
      obtain ⟨r, hr, e, he⟩ := h.album_reached ha
      exact ⟨r, hr, (e, a), he, rfl⟩
    · rintro ⟨r, -, ⟨e, a⟩, he, rfl⟩
      obtain ⟨e', -, ha⟩ := List.mem_flatMap.1 he
      obtain ⟨a', ha', heq⟩ := List.mem_map.1 ha
      cases heq
      exact ⟨a, (List.mem_filter.1 ha').1, rfl⟩
  | artists =>
    simp only [column, valuesOf, namesOf, List.mem_map]
    constructor
    · rintro ⟨a, ha, rfl⟩
      obtain ⟨r, hr, hra⟩ := h.artist_reached ha
      exact ⟨r, hr, a, hra, rfl⟩
    · rintro ⟨r, -, a, ha, rfl⟩
      obtain ⟨k, -, hk⟩ := List.mem_flatMap.1 ha
      exact ⟨a, (List.mem_filter.1 hk).1, rfl⟩

theorem Records.mem_column {given : List Addition} {lib : Library} (h : Records home ts given lib)
    {list : NameList} {v : Text} :
    v ∈ lib.column list ↔ ∃ i t, FirstAt home ts i t ∧ v ∈ t.values list := by
  rw [Library.mem_column h.consistent]
  constructor
  · rintro ⟨r, hr, hv⟩
    obtain ⟨i, t, ht, hholds⟩ := h.holds_row hr
    exact ⟨i, t, ht, hholds.valuesOf list ▸ hv⟩
  · rintro ⟨i, t, ht, hv⟩
    obtain ⟨r, hr, -, hholds⟩ := h.first i t ht
    exact ⟨r, hr, hholds.valuesOf list ▸ hv⟩

theorem mem_values (home : OsText) (ts : List Track) {l : Lookup} {v : Text} :
    v ∈ (after home ts).values l ↔
      (∃ (i : Nat) (t : Track) (id : Nat), ts[i]? = some t ∧
        (answers home ts)[i]? = some (.added id) ∧ v ∈ t.values l.list) ∧
          Like.Starts (l.start.getD []) v := by
  rw [values, List.mem_eraseDups, List.mem_filter, Like.test_startingWith,
    (records home ts).mem_column]
  refine and_congr_left fun _ => exists₂_congr fun i t => ?_
  rw [firstAt_iff_added]
  constructor
  · rintro ⟨⟨hget, id, hid⟩, hv⟩
    exact ⟨id, hget, hid, hv⟩
  · rintro ⟨id, hget, hid, hv⟩
    exact ⟨⟨hget, id, hid⟩, hv⟩

theorem bytes_startingWith {w : Text} (h : IsName w) :
    Text.bytes (startingWith w) = Text.bytes w + 1 := by
  have hescape : Like.escape w = w := by
    refine Like.escape_eq_self fun c hc => ?_
    rcases h.mem hc with hname | rfl | rfl
    · rintro (rfl | rfl | rfl) <;> exact absurd hname (by decide)
    · decide
    · decide
  rw [startingWith, hescape, Text.bytes_append]
  rfl

/-- A library completes every text, but for one whose last word is too long to compare values with.
-/
theorem completions_cases (lib : Library) (text : Text) :
    (∃ vs, lib.completions text = .ok vs ∧ vs.Pairwise (· < ·)) ∨
      lib.completions text = .error .operandTooLong ∧
        ∃ w, (Query.cursor text).typed = some w ∧ Like.maxOperand ≤ Text.bytes w := by
  rw [completions]
  cases hword : (Query.cursor text).word with
  | keyword =>
    rw [Query.completions_of_keyword lib.lookUp hword]
    exact .inl ⟨_, rfl, Text.pairwise_collapse_sort _⟩
  | name list =>
    rw [Query.completions_of_name lib.lookUp hword]
    obtain hok | ⟨herror, hlong⟩ := lib.lookUp_cases ⟨list, (Query.cursor text).typed⟩
    · rw [hok]
      exact .inl ⟨_, rfl, Text.pairwise_collapse_sort _⟩
    · rw [herror]
      refine .inr ⟨rfl, ?_⟩
      cases htyped : (Query.cursor text).typed with
      | none =>
        rw [htyped] at hlong
        exact absurd hlong (by rw [Option.getD_none]; decide)
      | some w =>
        rw [htyped, Option.getD_some, bytes_startingWith (Query.isName_of_typed htyped)] at hlong
        exact ⟨w, rfl, Nat.le_of_lt_succ hlong⟩

/-- What is looked up in a library are the values that the tracks that were added say of themselves,
as far as they start with the text that is given, each value once. A source is asked once for the
word that is being typed, or not at all where that is a keyword, and what comes of it is in order
and without repeats. A library fails only where a text is too long to compare values with. -/
theorem completions_offer_values (home : OsText) (ts : List Track) :
    let lib := after home ts
    (∀ l : Lookup,
      (∃ vs, lib.lookUp l = .ok vs ∧ vs.Nodup ∧ ∀ v, v ∈ vs ↔
        (∃ (i : Nat) (t : Track) (id : Nat), ts[i]? = some t ∧
          (answers home ts)[i]? = some (.added id) ∧ v ∈ t.values l.list) ∧
            Like.Starts (l.start.getD []) v) ∨
      lib.lookUp l = .error .operandTooLong ∧
        Like.maxOperand < Text.bytes (startingWith (l.start.getD []))) ∧
    (∀ v, Like.Starts [] v) ∧
    (∀ start v, Like.Plain start → Like.Plain v → (Like.Starts start v ↔ start.fold <+: v.fold)) ∧
    (∀ (ε : Type) (source : Lookup → Except ε (List Text)) (text : Text),
      let c := Query.cursor text
      let answer := Query.completions source text
      (Query.completions (noting source) text).run.run [] = (answer, Query.lookups text) ∧
      (c.word = .keyword → Query.lookups text = [] ∧ ∃ vs, answer = .ok vs ∧
        vs.Pairwise (· < ·) ∧ ∀ v, v ∈ vs ↔ ∃ k : Keyword, v = k.text ∧ c.typed.getD [] <+: v) ∧
      ∀ list, c.word = .name list → Query.lookups text = [⟨list, c.typed⟩] ∧
        (∀ e, source ⟨list, c.typed⟩ = .error e → answer = .error e) ∧
        ∀ given, source ⟨list, c.typed⟩ = .ok given → ∃ vs, answer = .ok vs ∧
          vs.Pairwise (· < ·) ∧ ∀ v, v ∈ vs ↔ v ∈ given) ∧
    ∀ text, (∃ vs, lib.completions text = .ok vs ∧ vs.Pairwise (· < ·)) ∨
      lib.completions text = .error .operandTooLong ∧
        ∃ w, (Query.cursor text).typed = some w ∧ Like.maxOperand ≤ Text.bytes w := by
  intro lib
  refine ⟨fun l => ?_, Like.starts_nil, fun start v => Like.starts_plain, ?_,
    lib.completions_cases⟩
  · obtain hok | hfail := lib.lookUp_cases l
    · exact .inl ⟨_, hok, nodup_eraseDups _, fun v => mem_values home ts⟩
    · exact .inr hfail
  · intro ε source text c answer
    refine ⟨Query.completions_noting source text, fun hword => ?_, fun list hword => ?_⟩
    · exact ⟨Query.lookups_of_keyword hword, _, Query.completions_of_keyword source hword,
        Text.pairwise_collapse_sort _,
        fun v => Text.mem_collapse_sort.trans Keyword.mem_startingWith⟩
    · have hanswer := Query.completions_of_name source hword
      refine ⟨Query.lookups_of_name hword, fun e he => ?_, fun given hgiven => ?_⟩
      · rw [he] at hanswer
        exact hanswer
      · rw [hgiven] at hanswer
        exact ⟨_, hanswer, Text.pairwise_collapse_sort given, fun v => Text.mem_collapse_sort⟩

theorem completions_offer_values_shared :
    let sale : Track :=
      ⟨Text.utf8 ['x'], "50% Off".toList, some "Shop".toList, some 1, ["Ann".toList]⟩
    let cents : Track :=
      ⟨Text.utf8 ['y'], "50 cents".toList, some "Shop".toList, some 2, ["ann".toList]⟩
    let lib := after music [sale, cents]
    (∃ vs, lib.lookUp ⟨.titles, some "50%".toList⟩ = .ok vs ∧ vs.Nodup ∧
      "50% Off".toList ∈ vs ∧ "50 cents".toList ∉ vs) ∧
    Query.lookups "x on s".toList = [⟨.albums, some ['s']⟩] ∧
    (∃ vs, lib.completions "x on s".toList = .ok vs ∧ vs.Pairwise (· < ·) ∧
      ∀ v, v ∈ vs ↔ v ∈ ["Shop".toList]) ∧
    Query.completions (fun _ => Except.error ()) "x on s".toList = .error () ∧
    Query.lookups [] = [] ∧ ∃ vs, lib.completions [] = .ok vs ∧ "and".toList ∈ vs := by
  intro sale cents lib
  obtain ⟨hlookUp, -, hplain, hsource, -⟩ := completions_offer_values music [sale, cents]
  refine ⟨?_, ?_⟩
  · have hshort : ¬Like.maxOperand < Text.bytes (startingWith "50%".toList) := by decide
    have hstart : Like.Plain "50%".toList := by decide
    have hsale : Like.Plain sale.title := by decide
    have hcents : Like.Plain cents.title := by decide
    have hadded : (answers music [sale, cents])[0]? = some (.added 1) := by
      decide +kernel
    obtain ⟨vs, hvs, hnodup, hmem⟩ :=
      (hlookUp ⟨.titles, some "50%".toList⟩).resolve_right fun h => hshort h.2
    refine ⟨vs, hvs, hnodup, ?_, fun h => ?_⟩
    · exact (hmem _).2 ⟨⟨0, sale, 1, rfl, hadded, List.mem_singleton_self _⟩,
        (hplain _ _ hstart hsale).2 (by decide)⟩
    · exact absurd ((hplain _ _ hstart hcents).1 ((hmem _).1 h).2) (by decide)
  · have hword : (Query.cursor "x on s".toList).word = .name .albums := by decide +kernel
    have htyped : (Query.cursor "x on s".toList).typed = some ['s'] := by decide +kernel
    have hempty : (Query.cursor []).word = .keyword := by decide +kernel
    have hshop : lib.lookUp ⟨.albums, (Query.cursor "x on s".toList).typed⟩ =
        .ok ["Shop".toList] := by
      rw [htyped]
      decide +kernel
    obtain ⟨-, -, hname⟩ := hsource _ lib.lookUp "x on s".toList
    obtain ⟨hlookups, -, hok⟩ := hname .albums hword
    obtain ⟨-, -, hfails⟩ := hsource Unit (fun _ => .error ()) "x on s".toList
    obtain ⟨-, hkeyword, -⟩ := hsource _ lib.lookUp []
    obtain ⟨hnone, vs, hvs, -, hmem⟩ := hkeyword hempty
    rw [htyped] at hlookups
    exact ⟨hlookups, hok _ hshop, (hfails .albums hword).2.1 () rfl, hnone, vs, hvs,
      (hmem _).2 ⟨.and, rfl, by decide +kernel⟩⟩

theorem completions_long_word {lib : Library} {w : Text} (hn : IsName w)
    (hk : Keyword.ofText? w = none) (hlong : Like.maxOperand ≤ Text.bytes w)
    (hne : lib.column .titles ≠ []) : lib.completions w = .error .operandTooLong := by
  have hcursor := Query.cursor_name hn hk
  have htooLong : Like.tooLong (startingWith w) := by
    rw [Like.tooLong, bytes_startingWith hn, decide_eq_true_eq]
    exact Nat.lt_succ_of_le hlong
  have hfails : lib.lookUp ⟨.titles, some w⟩ = .error .operandTooLong := by
    refine if_pos ?_
    rw [Option.getD_some, htooLong, Bool.true_and, Bool.not_eq_true', List.isEmpty_eq_false_iff]
    exact hne
  rw [completions, Query.completions_of_name lib.lookUp (congrArg Cursor.word hcursor), hcursor,
    Cursor.typed, Option.map_some, hfails]
  rfl

/-- A beginning with a null character in it is not read to its end, and a word of 50000 characters
is too long to compare values with. -/
theorem completions_stop_at_limits :
    oneTrack.lookUp ⟨.titles, some ['a', '\x00']⟩ = .ok [['a']] ∧
      ¬Text.fold ['a', '\x00'] <+: Text.fold ['a'] ∧
      oneTrack.completions (List.replicate 50000 'a') = .error .operandTooLong := by
  refine ⟨by decide +kernel, by decide, ?_⟩
  have hname : IsName (List.replicate 50000 'a') := isName_replicate (by decide) 49999
  have hkeyword : Keyword.ofText? (List.replicate 50000 'a') = none := by
    refine Keyword.ofText?_eq_none_iff.2 fun k hk => ?_
    have hshort : k.text.length ≤ 7 := by cases k <;> decide
    rw [hk, List.length_replicate] at hshort
    exact absurd hshort (by decide)
  have hbytes : Text.bytes (List.replicate 50000 'a') = 50000 :=
    (bytes_replicate 50000 'a').trans (Nat.mul_one _)
  exact completions_long_word hname hkeyword (Nat.le_of_eq hbytes.symm) (by decide)

end Library

end Jukebox
