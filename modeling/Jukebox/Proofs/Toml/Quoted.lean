import Jukebox.Toml.Quoted
import Jukebox.Toml.Writer

set_option autoImplicit false

namespace Jukebox.Toml

/-- What follows does not start with a quote, which could be taken for part of the closing ones. -/
def Unquoted (rest : Text) : Prop := ∀ t, rest ≠ '"' :: t ∧ rest ≠ '\'' :: t

theorem isPlain_of_isControl {c : Char} (h : isControl c = false) (hc : c ≠ '\n') : isPlain c := by
  by_cases htab : c = '\t'
  · rw [htab]
    rfl
  · simp only [isControl, Bool.or_eq_false_iff, Bool.and_eq_false_iff, decide_eq_false_iff_not,
      bne_eq_false_iff_eq, beq_eq_false_iff_ne] at h
    have hlow : 0x20 ≤ c.val := by
      rcases h.1 with (hlow | htab') | hc'
      · exact UInt32.not_lt.1 hlow
      · exact absurd htab' htab
      · exact absurd hc' hc
    simp [isPlain, hlow, h.2]

theorem hexChar?_hexByte {n : Nat} (h : n < 128) :
    hexChar? ('0' :: '0' :: hexByte n) = some (Char.ofNat n) := by
  have hall : ∀ m : Fin 128, hexChar? ('0' :: '0' :: hexByte m) = some (Char.ofNat m) := by decide
  exact hall ⟨n, h⟩

theorem escapeChar_cases (c : Char) :
    (escapeChar c = [c] ∧ c ≠ '\\' ∧ (c ≠ '\n' → isPlain c)) ∨
      ∃ mark, escapeChar c = '\\' :: mark ∧ ∀ rest, escaped? (mark ++ rest) = some (c, rest) ∧
        folded? (mark ++ rest) = none := by
  by_cases hb : c = '\x08'
  · exact .inr ⟨['b'], by rw [hb]; rfl, fun rest => by rw [hb]; exact ⟨rfl, rfl⟩⟩
  by_cases ht : c = '\t'
  · exact .inr ⟨['t'], by rw [ht]; rfl, fun rest => by rw [ht]; exact ⟨rfl, rfl⟩⟩
  by_cases hf : c = '\x0c'
  · exact .inr ⟨['f'], by rw [hf]; rfl, fun rest => by rw [hf]; exact ⟨rfl, rfl⟩⟩
  by_cases hr : c = '\r'
  · exact .inr ⟨['r'], by rw [hr]; rfl, fun rest => by rw [hr]; exact ⟨rfl, rfl⟩⟩
  by_cases hs : c = '\\'
  · exact .inr ⟨['\\'], by rw [hs]; rfl, fun rest => by rw [hs]; exact ⟨rfl, rfl⟩⟩
  have hescape : escapeChar c = if isControl c then "\\u00".toList ++ hexByte c.toNat else [c] := by
    rw [escapeChar, if_neg hb, if_neg ht, if_neg hf, if_neg hr, if_neg hs]
  by_cases hc : isControl c
  · rw [if_pos hc] at hescape
    refine .inr ⟨'u' :: '0' :: '0' :: hexByte c.toNat, hescape, fun rest => ⟨?_, rfl⟩⟩
    have hsmall : c.toNat < 128 := by
      simp only [isControl, Bool.or_eq_true, Bool.and_eq_true, decide_eq_true_eq, beq_iff_eq] at hc
      rcases hc with ⟨⟨hlow, -⟩, -⟩ | hdelete
      · exact Nat.lt_trans (UInt32.lt_iff_toNat_lt.1 hlow) (by decide)
      · rw [← Char.toNat_val, hdelete]
        decide
    have hlength : 4 ≤ ('0' :: '0' :: (hexByte c.toNat ++ rest)).length := Nat.le_add_left 4 _
    have htake : ('0' :: '0' :: (hexByte c.toNat ++ rest)).take 4 =
        '0' :: '0' :: hexByte c.toNat := rfl
    have hdrop : ('0' :: '0' :: (hexByte c.toNat ++ rest)).drop 4 = rest := rfl
    change (if 4 ≤ ('0' :: '0' :: (hexByte c.toNat ++ rest)).length then
      (hexChar? (('0' :: '0' :: (hexByte c.toNat ++ rest)).take 4)).map
        (·, ('0' :: '0' :: (hexByte c.toNat ++ rest)).drop 4) else none) = _
    rw [if_pos hlength, htake, hdrop, hexChar?_hexByte hsmall, Char.ofNat_toNat]
    rfl
  · rw [if_neg hc] at hescape
    exact .inl ⟨hescape, hs, isPlain_of_isControl (Bool.eq_false_iff.2 hc)⟩

theorem consRead_nil (r : Option (Text × Text)) : consRead [] r = r := by cases r <;> rfl

/-! Between double quotes on one line. -/

theorem basic?_quote (t : Text) : basic? ('"' :: t) = some ([], t) := by rw [basic?]

theorem basic?_escape {t rest : Text} {c : Char} (h : escaped? t = some (c, rest)) :
    basic? ('\\' :: t) = consRead [c] (basic? rest) := by
  rw [basic?]
  split
  · next d u he =>
    rw [h] at he
    cases he
    rfl
  · next he =>
    rw [h] at he
    cases he

theorem basic?_plain {c : Char} (h : isPlain c) (hquote : c ≠ '"') (hslash : c ≠ '\\') (t : Text) :
    basic? (c :: t) = consRead [c] (basic? t) := by
  rw [basic?]
  · rw [if_pos h]
  · exact fun he => hquote he
  · exact fun he => hslash he

theorem basic?_escapeLine (t rest : Text) :
    basic? (escapeLine t ++ '"' :: rest) = some (t, rest) := by
  induction t with
  | nil => exact basic?_quote rest
  | cons c t ih =>
    rw [escapeLine, List.append_assoc]
    by_cases hquote : c = '"'
    · rw [if_pos hquote, hquote]
      exact (basic?_escape rfl).trans (congrArg (consRead ['"']) ih)
    by_cases hbreak : c = '\n'
    · rw [if_neg hquote, if_pos hbreak, hbreak]
      exact (basic?_escape rfl).trans (congrArg (consRead ['\n']) ih)
    rw [if_neg hquote, if_neg hbreak]
    obtain ⟨hself, hslash, hplain⟩ | ⟨mark, hescape, hmark⟩ := escapeChar_cases c
    · rw [hself, List.singleton_append, basic?_plain (hplain hbreak) hquote hslash, ih]
      rfl
    · rw [hescape, List.cons_append, basic?_escape (hmark _).1, ih]
      rfl

/-! Between single quotes on one line. -/

theorem literal?_append {t : Text} (h : ∀ c ∈ t, isPlain c ∧ c ≠ '\'') (rest : Text) :
    literal? (t ++ '\'' :: rest) = some (t, rest) := by
  induction t with
  | nil => rfl
  | cons c t ih =>
    obtain ⟨⟨hplain, hquote⟩, ht⟩ := List.forall_mem_cons.1 h
    rw [List.cons_append, literal?, if_pos hplain, ih ht]
    · rfl
    · exact fun he => hquote he

/-- On several lines, quotes that are not three in a row belong to the text. -/
theorem read_quotes {read? : Text → Option (Text × Text)} {quote : Char}
    (hquote : ∀ t, (∀ u, quote :: t ≠ quote :: quote :: quote :: u) →
      read? (quote :: t) = consRead [quote] (read? t))
    {n : Nat} (hn : n ≤ 2) {t : Text} (ht : ∀ u, t ≠ quote :: u) :
    read? (List.replicate n quote ++ t) = consRead (List.replicate n quote) (read? t) := by
  have hone : read? (quote :: t) = consRead [quote] (read? t) :=
    hquote t fun _ he => ht _ (List.cons.inj he).2
  match n, hn with
  | 0, _ => exact (consRead_nil _).symm
  | 1, _ => exact hone
  | 2, _ =>
    have htwo : read? (quote :: quote :: t) = consRead [quote] (read? (quote :: t)) :=
      hquote (quote :: t) fun _ he => ht _ (List.cons.inj (List.cons.inj he).2).2
    refine htwo.trans ?_
    rw [hone]
    cases read? t <;> rfl

/-! Between three double quotes on several lines. -/

theorem basicLines?_break (t : Text) :
    basicLines? ('\n' :: t) = consRead ['\n'] (basicLines? t) := by rw [basicLines?]

theorem basicLines?_escape {t rest : Text} {c : Char} (hfold : folded? t = none)
    (h : escaped? t = some (c, rest)) :
    basicLines? ('\\' :: t) = consRead [c] (basicLines? rest) := by
  rw [basicLines?]
  split
  · next he =>
    rw [hfold] at he
    cases he
  · split
    · next he =>
      rw [h] at he
      cases he
      rfl
    · next he =>
      rw [h] at he
      cases he

theorem basicLines?_plain {c : Char} {t : Text} (h : isPlain c) (hslash : c ≠ '\\')
    (hquote : ∀ u, c :: t ≠ '"' :: '"' :: '"' :: u) :
    basicLines? (c :: t) = consRead [c] (basicLines? t) := by
  have hne (u : Text) (hc : c = '"') (ht : t = '"' :: '"' :: u) : False := by
    rw [hc, ht] at hquote
    exact hquote u rfl
  rw [basicLines?]
  · rw [if_pos h]
  · exact fun u => hne ('"' :: '"' :: u)
  · exact fun u => hne ('"' :: u)
  · exact hne
  · exact fun hc => hslash hc
  · rintro rfl
    cases h
  · rintro u rfl
    cases h

theorem basicLines?_quotes {n : Nat} (hn : n ≤ 2) {t : Text} (ht : ∀ u, t ≠ '"' :: u) :
    basicLines? (List.replicate n '"' ++ t) = consRead (List.replicate n '"') (basicLines? t) :=
  read_quotes (fun _ => basicLines?_plain rfl (by decide)) hn ht

theorem basicLines?_close {rest : Text} (h : Unquoted rest) {n : Nat} (hn : n ≤ 2) :
    basicLines? (List.replicate n '"' ++ '"' :: '"' :: '"' :: rest) =
      some (List.replicate n '"', rest) := by
  match n, hn with
  | 0, _ =>
    change basicLines? ('"' :: '"' :: '"' :: rest) = some ([], rest)
    rw [basicLines?]
    · exact fun t => (h ('"' :: t)).1
    · exact fun t => (h t).1
  | 1, _ =>
    change basicLines? ('"' :: '"' :: '"' :: '"' :: rest) = some (['"'], rest)
    rw [basicLines?]
    exact fun t => (h t).1
  | 2, _ =>
    change basicLines? ('"' :: '"' :: '"' :: '"' :: '"' :: rest) = some (['"', '"'], rest)
    rw [basicLines?]

/-- The quotes in front are those of the text that were not escaped yet. -/
theorem basicLines?_escapeLines {rest : Text} (h : Unquoted rest) (t : Text) {n : Nat}
    (hn : n ≤ 2) :
    basicLines? (List.replicate n '"' ++ (escapeLines n t ++ '"' :: '"' :: '"' :: rest)) =
      some (List.replicate n '"' ++ t, rest) := by
  induction t generalizing n with
  | nil =>
    rw [List.append_nil]
    exact basicLines?_close h hn
  | cons c t ih =>
    -- A character that is not written as a quote ends the run of quotes in front of it.
    have hread {x : Text} {d : Char} (hd : d ≠ '"')
        (hx : basicLines? (d :: x ++ (escapeLines 0 t ++ '"' :: '"' :: '"' :: rest)) =
          consRead [c] (basicLines? (escapeLines 0 t ++ '"' :: '"' :: '"' :: rest))) :
        basicLines? (List.replicate n '"' ++
            (d :: x ++ escapeLines 0 t ++ '"' :: '"' :: '"' :: rest)) =
          some (List.replicate n '"' ++ c :: t, rest) := by
      have ih0 : basicLines? (escapeLines 0 t ++ '"' :: '"' :: '"' :: rest) = some (t, rest) :=
        ih (Nat.zero_le 2)
      have hne (u : Text) :
          d :: x ++ (escapeLines 0 t ++ '"' :: '"' :: '"' :: rest) ≠ '"' :: u :=
        fun he => hd (List.cons.inj he).1
      rw [List.append_assoc, basicLines?_quotes hn hne, hx, ih0]
      rfl
    rw [escapeLines]
    by_cases hquote : c = '"'
    · rw [if_pos hquote]
      by_cases htwo : n = 2
      · rw [if_pos htwo]
        refine hread (by decide) ?_
        rw [hquote]
        exact basicLines?_escape rfl rfl
      · rw [if_neg htwo, hquote, List.cons_append, ← List.singleton_append, ← List.append_assoc,
          ← List.replicate_succ', ih (by omega), List.replicate_succ', List.append_assoc,
          List.singleton_append]
    · rw [if_neg hquote]
      by_cases hbreak : c = '\n'
      · rw [if_pos hbreak]
        refine hread (by decide) ?_
        rw [hbreak]
        exact basicLines?_break _
      · rw [if_neg hbreak]
        obtain ⟨hself, hslash, hplain⟩ | ⟨mark, hescape, hmark⟩ := escapeChar_cases c
        · rw [hself]
          exact hread hquote (basicLines?_plain (hplain hbreak) hslash fun u he =>
            hquote (List.cons.inj he).1)
        · rw [hescape]
          exact hread (by decide) (basicLines?_escape (hmark _).2 (hmark _).1)

/-! Between three single quotes on several lines. -/

theorem literalLines?_plain {c : Char} {t : Text} (h : isPlain c)
    (hquote : ∀ u, c :: t ≠ '\'' :: '\'' :: '\'' :: u) :
    literalLines? (c :: t) = consRead [c] (literalLines? t) := by
  have hne (u : Text) (hc : c = '\'') (ht : t = '\'' :: '\'' :: u) : False := by
    rw [hc, ht] at hquote
    exact hquote u rfl
  rw [literalLines?]
  · rw [if_pos h]
  · exact fun u => hne ('\'' :: '\'' :: u)
  · exact fun u => hne ('\'' :: u)
  · exact hne
  · rintro rfl
    cases h
  · rintro u rfl
    cases h

theorem literalLines?_quotes {n : Nat} (hn : n ≤ 2) {t : Text} (ht : ∀ u, t ≠ '\'' :: u) :
    literalLines? (List.replicate n '\'' ++ t) =
      consRead (List.replicate n '\'') (literalLines? t) :=
  read_quotes (fun _ => literalLines?_plain rfl) hn ht

theorem literalLines?_close {rest : Text} (h : Unquoted rest) {n : Nat} (hn : n ≤ 2) :
    literalLines? (List.replicate n '\'' ++ '\'' :: '\'' :: '\'' :: rest) =
      some (List.replicate n '\'', rest) := by
  match n, hn with
  | 0, _ =>
    change literalLines? ('\'' :: '\'' :: '\'' :: rest) = some ([], rest)
    rw [literalLines?]
    · exact fun t => (h ('\'' :: t)).2
    · exact fun t => (h t).2
  | 1, _ =>
    change literalLines? ('\'' :: '\'' :: '\'' :: '\'' :: rest) = some (['\''], rest)
    rw [literalLines?]
    exact fun t => (h t).2
  | 2, _ => rfl

theorem literalLines?_append {rest : Text} (h : Unquoted rest) {t : Text}
    (hcontrol : ∀ c ∈ t, isControl c = false) {n : Nat} (hn : n ≤ 2)
    (hrun : hasRun.go 3 '\'' (3 - n) t = false) :
    literalLines? (List.replicate n '\'' ++ (t ++ '\'' :: '\'' :: '\'' :: rest)) =
      some (List.replicate n '\'' ++ t, rest) := by
  induction t generalizing n with
  | nil =>
    rw [List.append_nil]
    exact literalLines?_close h hn
  | cons c t ih =>
    obtain ⟨hc, ht⟩ := List.forall_mem_cons.1 hcontrol
    obtain ⟨k, hk⟩ : ∃ k, 3 - n = k + 1 := ⟨2 - n, by omega⟩
    rw [hk, hasRun.go] at hrun
    by_cases hquote : c = '\''
    · rw [if_pos hquote] at hrun
      have hn' : n + 1 ≤ 2 := by
        have hk0 : k ≠ 0 := by
          rintro rfl
          rw [hasRun.go] at hrun
          cases hrun
        omega
      obtain rfl : k = 3 - (n + 1) := by omega
      rw [hquote, List.cons_append, ← List.singleton_append, ← List.append_assoc,
        ← List.replicate_succ', ih ht hn' hrun, List.replicate_succ', List.append_assoc,
        List.singleton_append]
    · rw [if_neg hquote] at hrun
      have ih0 : literalLines? (t ++ '\'' :: '\'' :: '\'' :: rest) = some (t, rest) :=
        ih ht (Nat.zero_le 2) hrun
      have hne (u : Text) : c :: (t ++ '\'' :: '\'' :: '\'' :: rest) ≠ '\'' :: u :=
        fun he => hquote (List.cons.inj he).1
      have hread : literalLines? (c :: (t ++ '\'' :: '\'' :: '\'' :: rest)) =
          consRead [c] (literalLines? (t ++ '\'' :: '\'' :: '\'' :: rest)) := by
        by_cases hbreak : c = '\n'
        · rw [hbreak, literalLines?]
        · exact literalLines?_plain (isPlain_of_isControl hc hbreak) fun u => hne _
      rw [List.cons_append, literalLines?_quotes hn hne, hread, ih0]
      rfl

/-! The form that a text takes, and the reader that its opening quotes lead to. -/

theorem form_literal {t : Text} (h : form t = .literal) : ∀ c ∈ t, isPlain c ∧ c ≠ '\'' := by
  have hfits : t.any isControl = false ∧ t.contains '\'' = false ∧ t.contains '\n' = false := by
    grind [form]
  intro c hc
  have hcontrol : isControl c = false := by simpa using List.any_eq_false.1 hfits.1 c hc
  have hquote : c ≠ '\'' := by
    rintro rfl
    simp [hc] at hfits
  have hbreak : c ≠ '\n' := by
    rintro rfl
    simp [hc] at hfits
  exact ⟨isPlain_of_isControl hcontrol hbreak, hquote⟩

theorem form_literalLines {t : Text} (h : form t = .literalLines) :
    (∀ c ∈ t, isControl c = false) ∧ hasRun 3 '\'' t = false := by
  have hfits : t.any isControl = false ∧ hasRun 3 '\'' t = false := by grind [form]
  exact ⟨fun c hc => by simpa using List.any_eq_false.1 hfits.1 c hc, hfits.2⟩

theorem skipFirstBreak_firstBreak {t u : Text} (h : '\n' ∉ t → newline? u = none) :
    skipFirstBreak (firstBreak t ++ u) = u := by
  unfold firstBreak
  by_cases ht : '\n' ∈ t
  · rw [if_pos (by simpa using ht)]
    rfl
  · rw [if_neg (by simpa using ht), skipFirstBreak, List.nil_append, h ht]
    rfl

theorem newline?_of_read {read? : Text → Option (Text × Text)}
    (hbreak : ∀ u, read? ('\n' :: u) = consRead ['\n'] (read? u))
    (hreturn : ∀ u, read? ('\r' :: '\n' :: u) = consRead ['\r', '\n'] (read? u))
    {t u rest : Text} (h : read? u = some (t, rest)) (ht : '\n' ∉ t) : newline? u = none := by
  have hconsumed {front v : Text} (hfront : '\n' ∈ front)
      (hread : consRead front (read? v) = some (t, rest)) : False := by
    obtain ⟨⟨more, _⟩, -, he⟩ := Option.map_eq_some_iff.1 hread
    cases he
    exact ht (List.mem_append_left more hfront)
  unfold newline?
  split
  · next v => exact (hconsumed (by decide) (hbreak v ▸ h)).elim
  · next v => exact (hconsumed (by decide) (hreturn v ▸ h)).elim
  · rfl

/-- Only a quote behind the closing one could make an empty text an opening on several lines. -/
theorem quoted?_basic {t u rest : Text} (h : Unquoted rest) (hread : basic? u = some (t, rest)) :
    quoted? ('"' :: u) = some (t, rest) := by
  rw [quoted?]
  · exact hread
  · rintro v rfl
    rw [basic?_quote] at hread
    cases hread
    exact (h v).1 rfl

theorem quoted?_literal {t u rest : Text} (h : Unquoted rest)
    (hread : literal? u = some (t, rest)) : quoted? ('\'' :: u) = some (t, rest) := by
  rw [quoted?]
  · exact hread
  · rintro v rfl
    cases hread
    exact (h v).2 rfl

theorem quoted?_writeText (t : Text) {rest : Text} (h : Unquoted rest) :
    quoted? (writeText t ++ rest) = some (t, rest) := by
  unfold writeText
  split
  · simpa using quoted?_basic h (basic?_escapeLine t rest)
  · next hform => simpa using quoted?_literal h (literal?_append (form_literal hform) rest)
  · have hread : basicLines? (escapeLines 0 t ++ '"' :: '"' :: '"' :: rest) = some (t, rest) :=
      basicLines?_escapeLines h t (Nat.zero_le 2)
    have hskip := skipFirstBreak_firstBreak (newline?_of_read basicLines?_break (fun u => by
      rw [basicLines?]) hread)
    have hquoted : quoted? ('"' :: '"' :: '"' :: (firstBreak t ++
        (escapeLines 0 t ++ '"' :: '"' :: '"' :: rest))) = some (t, rest) := by
      rw [quoted?, hskip, hread]
    simpa using hquoted
  · next hform =>
    obtain ⟨hcontrol, hrun⟩ := form_literalLines hform
    have hread : literalLines? (t ++ '\'' :: '\'' :: '\'' :: rest) = some (t, rest) :=
      literalLines?_append h hcontrol (Nat.zero_le 2) hrun
    have hskip := skipFirstBreak_firstBreak (newline?_of_read (fun u => by rw [literalLines?])
      (fun u => by rw [literalLines?]) hread)
    have hquoted : quoted? ('\'' :: '\'' :: '\'' :: (firstBreak t ++
        (t ++ '\'' :: '\'' :: '\'' :: rest))) = some (t, rest) := by
      rw [quoted?, hskip, hread]
    simpa using hquoted

theorem writeText_eq_cons (t : Text) : ∃ u, writeText t = '"' :: u ∨ writeText t = '\'' :: u := by
  unfold writeText
  cases form t
  · exact ⟨_, .inl rfl⟩
  · exact ⟨_, .inr rfl⟩
  · exact ⟨_, .inl rfl⟩
  · exact ⟨_, .inr rfl⟩

end Jukebox.Toml
