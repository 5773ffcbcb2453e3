import Jukebox.Proofs.Toml.Quoted
import Jukebox.Toml.Reader

set_option autoImplicit false

namespace Jukebox.Toml

theorem value?_writeText (depth : Nat) (t : Text) {rest : Text} (h : Unquoted rest) :
    value? depth (writeText t ++ rest) = some (.text t, rest) := by
  have hread := quoted?_writeText t h
  obtain ⟨u, hu | hu⟩ := writeText_eq_cons t
  · rw [hu, List.cons_append] at hread ⊢
    rw [value?, hread]
    rfl
  · rw [hu, List.cons_append] at hread ⊢
    rw [value?, hread]
    rfl

theorem skipGap_writeText (t rest : Text) :
    skipGap (writeText t ++ rest) = writeText t ++ rest := by
  obtain ⟨u, hu | hu⟩ := writeText_eq_cons t
  · rw [hu]
    rfl
  · rw [hu]
    rfl

theorem skipSpace_writeText (t rest : Text) :
    skipSpace (writeText t ++ rest) = writeText t ++ rest := by
  obtain ⟨u, hu | hu⟩ := writeText_eq_cons t
  · rw [hu]
    rfl
  · rw [hu]
    rfl

theorem skipSpace_writeList (ts : List Text) (rest : Text) :
    skipSpace (writeList ts ++ rest) = writeList ts ++ rest := by
  match ts with
  | [] => rfl
  | [t] => rfl
  | t :: u :: ts => rfl

theorem unquoted_cons {c : Char} (h : c ≠ '"' ∧ c ≠ '\'') (t : Text) : Unquoted (c :: t) :=
  fun _ => ⟨fun he => h.1 (List.cons.inj he).1, fun he => h.2 (List.cons.inj he).1⟩

theorem items?_close {item? : Text → Option (Node × Text)} {t rest : Text} (n : Nat)
    (h : skipGap t = ']' :: rest) : items? item? (n + 1) t = some ([], rest) := by
  rw [items?, h]
  rfl

theorem items?_item {item? : Text → Option (Node × Text)} {t u rest : Text} {v : Node} (n : Nat)
    (hgap : skipGap t = u) (hopen : ∀ w, u ≠ ']' :: w) (hitem : item? u = some (v, rest)) :
    (∀ w, skipGap rest = ']' :: w → items? item? (n + 1) t = some ([v], w)) ∧
      ∀ w vs rest', skipGap rest = ',' :: w → items? item? n w = some (vs, rest') →
        items? item? (n + 1) t = some (v :: vs, rest') := by
  constructor
  · intro w hw
    rw [items?, hgap]
    split
    · next w => exact absurd rfl (hopen w)
    · simp [hitem, hw]
  · intro w vs rest' hw hvs
    rw [items?, hgap]
    split
    · next w => exact absurd rfl (hopen w)
    · simp [hitem, hw, hvs]

theorem writeText_ne_close (t rest w : Text) : writeText t ++ rest ≠ ']' :: w := by
  obtain ⟨u, hu | hu⟩ := writeText_eq_cons t <;> rw [hu] <;>
    exact fun he => absurd (List.cons.inj he).1 (by decide)

/-- Items on lines of their own are read in turn up to the closing bracket. -/
theorem items?_lines (depth : Nat) (ts : List Text) (rest : Text) {n : Nat} (hn : ts.length < n) :
    items? (value? depth) n ('\n' :: (ts.flatMap (fun t =>
      "    ".toList ++ writeText t ++ ",\n".toList) ++ ']' :: rest)) =
        some (ts.map .text, rest) := by
  induction ts generalizing n with
  | nil =>
    obtain ⟨n, rfl⟩ := Nat.exists_eq_add_one_of_ne_zero (Nat.ne_zero_of_lt hn)
    exact items?_close n rfl
  | cons t ts ih =>
    obtain ⟨n, rfl⟩ := Nat.exists_eq_add_one_of_ne_zero (Nat.ne_zero_of_lt hn)
    let more := '\n' :: (ts.flatMap (fun t => "    ".toList ++ writeText t ++ ",\n".toList) ++
      ']' :: rest)
    have hgap : skipGap ('\n' :: ((t :: ts).flatMap (fun t =>
        "    ".toList ++ writeText t ++ ",\n".toList) ++ ']' :: rest)) =
        writeText t ++ ',' :: more := by
      rw [← skipGap_writeText]
      simp [skipGap, isSpace, more]
    have hitem := value?_writeText depth t (unquoted_cons (c := ',') (by decide) more)
    exact (items?_item n hgap (writeText_ne_close t _) hitem).2 more _ rest rfl
      (ih (Nat.lt_of_succ_lt_succ hn))

theorem value?_writeList (depth : Nat) (ts : List Text) (rest : Text) :
    value? (depth + 1) (writeList ts ++ rest) = some (.array (ts.map .text), rest) := by
  have harray {u : Text} {vs : List Node} {rest' : Text}
      (h : items? (value? depth) (u.length + 1) u = some (vs, rest')) :
      value? (depth + 1) ('[' :: u) = some (.array vs, rest') := by
    rw [value?, h]
    rfl
  match ts with
  | [] => exact harray (items?_close _ rfl)
  | [t] =>
    have hitem := value?_writeText depth t (unquoted_cons (c := ']') (by decide) rest)
    have hread := (items?_item (writeText t ++ ']' :: rest).length (skipGap_writeText t _)
      (writeText_ne_close t _) hitem).1 rest rfl
    simpa [writeList] using harray hread
  | t :: u :: ts =>
    have hcount (ts : List Text) : ts.length ≤ (ts.flatMap fun t =>
        "    ".toList ++ writeText t ++ ",\n".toList).length := by
      induction ts with
      | nil => exact Nat.le_refl 0
      | cons t ts ih =>
        rw [List.flatMap_cons, List.length_append, List.length_append, List.length_cons]
        have hcomma : (",\n".toList).length = 2 := rfl
        omega
    have hread := items?_lines depth (t :: u :: ts) rest (Nat.lt_succ_of_le (Nat.le_succ_of_le
      (Nat.le_trans (hcount (t :: u :: ts)) (Nat.le_add_right _ (']' :: rest).length))))
    rw [← List.length_append] at hread
    simpa [writeList] using harray hread

/-! A line is a key that needs no quotes, and what it is set to; or such a key in brackets. -/

theorem isBareKey_iff {key : Text} : isBareKey key ↔ key ≠ [] ∧ ∀ c ∈ key, isBareChar c := by
  simp [isBareKey]

theorem ne_of_isBareChar {c d : Char} (h : isBareChar c) (hd : isBareChar d = false) : c ≠ d := by
  rintro rfl
  rw [h] at hd
  cases hd

theorem exists_cons_of_isBareKey {key : Text} (h : isBareKey key) :
    ∃ c t, key = c :: t ∧ isBareChar c := by
  obtain ⟨hne, hall⟩ := isBareKey_iff.1 h
  obtain ⟨c, t, rfl⟩ := List.exists_cons_of_ne_nil hne
  exact ⟨c, t, rfl, hall c List.mem_cons_self⟩

section BareKey

variable {key : Text} (h : isBareKey key) (rest : Text)
include h

theorem bareKey_append_ne {c : Char} (hc : isBareChar c = false) (t : Text) :
    key ++ rest ≠ c :: t := by
  obtain ⟨d, key, rfl, hd⟩ := exists_cons_of_isBareKey h
  exact fun he => ne_of_isBareChar hd hc (List.cons.inj he).1

theorem skipSpace_bareKey : skipSpace (key ++ rest) = key ++ rest := by
  obtain ⟨c, key, rfl, hc⟩ := exists_cons_of_isBareKey h
  refine List.dropWhile_cons_of_neg ?_
  simp [isSpace, ne_of_isBareChar hc (d := ' ') rfl, ne_of_isBareChar hc (d := '\t') rfl]

theorem skipGap_bareKey : skipGap (key ++ rest) = key ++ rest := by
  obtain ⟨c, key, rfl, hc⟩ := exists_cons_of_isBareKey h
  have hspace := ne_of_isBareChar hc (d := ' ') rfl
  have htab := ne_of_isBareChar hc (d := '\t') rfl
  have hbreak := ne_of_isBareChar hc (d := '\n') rfl
  have hreturn := ne_of_isBareChar hc (d := '\r') rfl
  have hcomment := ne_of_isBareChar hc (d := '#') rfl
  simp [skipGap, isSpace, hspace, htab, hbreak, hreturn, hcomment]

end BareKey

theorem keyPath?_bare {key : Text} (h : isBareKey key) {rest : Text}
    (hend : ∀ c, rest.head? = some c → isBareChar c = false)
    (hpoint : ∀ t, skipSpace rest ≠ '.' :: t) :
    keyPath? (key ++ rest) = some ([key], skipSpace rest) := by
  obtain ⟨hne, hall⟩ := isBareKey_iff.1 h
  obtain ⟨htake, hdrop⟩ := Text.takeWhile_dropWhile_append hall hend
  have hkey : key? (key ++ rest) = some (key, rest) := by
    rw [key?]
    · rw [htake, hdrop, if_neg (by simpa using hne)]
    · exact bareKey_append_ne h rest rfl
    · exact bareKey_append_ne h rest rfl
  rw [keyPath?, maxDepth, keys?, hkey]
  simp only [Option.bind_eq_bind, Option.bind_some]
  rfl

theorem lines?_expression {n : Nat} {d d' : Document} {t u rest more : Text} (hgap : skipGap t = u)
    (hne : u ≠ []) (hread : expression? d u = some (d', rest)) (hend : lineEnd? rest = some more) :
    lines? (n + 1) d t = lines? n d' more := by
  obtain ⟨c, u, rfl⟩ := List.exists_cons_of_ne_nil hne
  rw [lines?, hgap]
  simp only [hread, hend, Option.bind_eq_bind, Option.bind_some]

theorem lines?_header {n : Nat} {d d' : Document} {key t more : Text} (hkey : isBareKey key)
    (hgap : skipGap t = '[' :: (key ++ ']' :: '\n' :: more))
    (hopen : d.openHeader false [key] = some d') : lines? (n + 1) d t = lines? n d' more := by
  refine lines?_expression hgap (List.cons_ne_nil _ _) ?_ (rfl : lineEnd? ('\n' :: more) = _)
  have hpath : keyPath? (key ++ ']' :: '\n' :: more) = some ([key], ']' :: '\n' :: more) :=
    keyPath?_bare hkey (fun _ he => Option.some.inj he ▸ rfl) (fun t => nofun)
  rw [expression?, header?]
  · simp [skipSpace_bareKey hkey, hpath, hopen]
  · exact bareKey_append_ne hkey _ rfl

theorem lines?_setting {n : Nat} {d d' : Document} {key w more : Text} {v : Node}
    (hkey : isBareKey key) (hskip : skipSpace w = w)
    (hread : value? maxDepth w = some (v, '\n' :: more)) (hassign : d.assign [key] v = some d') :
    lines? (n + 1) d (key ++ " = ".toList ++ w) = lines? n d' more := by
  have hline : key ++ " = ".toList ++ w = key ++ ' ' :: '=' :: ' ' :: w := by simp
  have hpath : keyPath? (key ++ ' ' :: '=' :: ' ' :: w) = some ([key], '=' :: ' ' :: w) :=
    keyPath?_bare hkey (fun _ he => Option.some.inj he ▸ rfl) (fun t => nofun)
  have hvalue : keyValue? skipSpace (value? maxDepth) (key ++ ' ' :: '=' :: ' ' :: w) =
      some (([key], v), '\n' :: more) := by
    have hsign : skipSpace ('=' :: ' ' :: w) = '=' :: ' ' :: w := rfl
    have hspace : skipSpace (' ' :: w) = w := hskip
    rw [keyValue?, hpath]
    simp only [Option.bind_eq_bind, Option.bind_some, hsign, hspace, hread]
    rfl
  rw [hline]
  refine lines?_expression (skipGap_bareKey hkey _) ?_ ?_ (rfl : lineEnd? ('\n' :: more) = _)
  · exact List.append_ne_nil_of_left_ne_nil (isBareKey_iff.1 hkey).1 _
  · rw [expression?]
    · simp [hvalue, hassign]
    · exact bareKey_append_ne hkey _ rfl

end Jukebox.Toml
