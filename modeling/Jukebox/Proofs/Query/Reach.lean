import Mathlib.Data.List.Induction
import Jukebox.Proofs.Lexeme.Layout
import Jukebox.Proofs.Query.Descent

set_option autoImplicit false

namespace Jukebox

namespace Place

inductive Reaches : Place → Selection → List Lexeme → Place → Selection → Prop where
  | nil {p s} : Reaches p s [] p s
  | step {p s l p' s' ls p'' s''} (h : Step l p s p' s') (hs : Reaches p' s' ls p'' s'') :
      Reaches p s (l :: ls) p'' s''
  | link {p s l ls p'' s''} {link : Link} (hp : p.mayEnd) (hl : l.kind = .keyword link.keyword)
      (hs : Reaches (.start true) .empty ls p'' s'') : Reaches p s (l :: ls) p'' s''

theorem Reaches.trans {p p' p'' : Place} {s s' s'' : Selection} {ls ms : List Lexeme}
    (h : Reaches p s ls p' s') (h' : Reaches p' s' ms p'' s'') :
    Reaches p s (ls ++ ms) p'' s'' := by
  induction h with
  | nil => exact h'
  | step hl _ ih => exact .step hl (ih h')
  | link hp hl _ ih => exact .link hp hl (ih h')

theorem exists_reaches_or_fail (p : Place) (s : Selection) (l : Lexeme) :
    (∃ p' s', Reaches p s [l] p' s') ∨ p.move s l = .fail := by
  cases h : p.move s l with
  | go p' s' => exact .inl ⟨p', s', .step (step_of_move h) .nil⟩
  | link link =>
    obtain ⟨hp, hl⟩ := move_eq_link_iff.1 h
    exact .inl ⟨_, _, .link hp hl .nil⟩
  | fail => exact .inr rfl

theorem Reaches.not_fail {p p' : Place} {s s' : Selection} {l : Lexeme} {ls : List Lexeme}
    (h : Reaches p s (l :: ls) p' s') : p.move s l ≠ .fail := by
  cases h with
  | step h _ => simp [move_of_step h]
  | link hp hl _ => simp [move_eq_link_iff.2 ⟨hp, hl⟩]

theorem Reaches.of_append {p p' p'' : Place} {s s' s'' : Selection} {ls ms : List Lexeme}
    (h : Reaches p s ls p' s') (h' : Reaches p s (ls ++ ms) p'' s'') :
    Reaches p' s' ms p'' s'' := by
  induction h with
  | nil => exact h'
  | step hl _ ih =>
    cases h' with
    | step hl' h' =>
      have hm := (move_of_step hl).symm.trans (move_of_step hl')
      cases hm
      exact ih h'
    | link hp hk _ =>
      have hm := (move_of_step hl).symm.trans (move_eq_link_iff.2 ⟨hp, hk⟩)
      cases hm
  | link hp hk _ ih =>
    cases h' with
    | step hl' _ =>
      have hm := (move_of_step hl').symm.trans (move_eq_link_iff.2 ⟨hp, hk⟩)
      cases hm
    | link _ _ h' => exact ih h'

theorem Reaches.exists_of_append {p p' : Place} {s s' : Selection} {ls ms : List Lexeme}
    (h : Reaches p s (ls ++ ms) p' s') : ∃ p'' s'', Reaches p s ls p'' s'' := by
  induction ls generalizing p s with
  | nil => exact ⟨p, s, .nil⟩
  | cons l ls ih =>
    cases h with
    | step hl h =>
      obtain ⟨p'', s'', h⟩ := ih h
      exact ⟨p'', s'', .step hl h⟩
    | link hp hl h =>
      obtain ⟨p'', s'', h⟩ := ih h
      exact ⟨p'', s'', .link hp hl h⟩

theorem exists_reaches (p : Place) (s : Selection) (ls : List Lexeme) :
    (∃ p' s', Reaches p s ls p' s') ∨ ∃ front l rest p' s', ls = front ++ l :: rest ∧
      Reaches p s front p' s' ∧ p'.move s' l = .fail := by
  induction ls using List.reverseRecOn with
  | nil => exact .inl ⟨p, s, .nil⟩
  | append_singleton ls l ih =>
    obtain ⟨p', s', h⟩ | ⟨front, m, rest, p', s', rfl, h, hm⟩ := ih
    · obtain ⟨p'', s'', hl⟩ | hl := exists_reaches_or_fail p' s' l
      · exact .inl ⟨p'', s'', h.trans hl⟩
      · exact .inr ⟨ls, l, [], p', s', rfl, h, hl⟩
    · exact .inr ⟨front, m, rest ++ [l], p', s', by simp, h, hm⟩

/-- The list that names belong to at the end of some lexemes: the last keyword opens it. -/
def lastList (ls : List Lexeme) : NameList :=
  match ((ls.map Lexeme.kind).filter Kind.isKeyword).getLast? with
  | some (.keyword .onAlbums) => .albums
  | some (.keyword .byArtists) => .artists
  | _ => .titles

theorem lastList_keyword {ls : List Lexeme} {l : Lexeme} {k : Keyword}
    (h : l.kind = .keyword k) :
    lastList (ls ++ [l]) = match k with
      | .onAlbums => .albums
      | .byArtists => .artists
      | _ => .titles := by
  cases k <;> simp [lastList, h, Kind.isKeyword, List.filter_append]

theorem lastList_concat {ls : List Lexeme} {l : Lexeme} (h : l.kind.isKeyword = false) :
    lastList (ls ++ [l]) = lastList ls := by
  simp [lastList, h, List.filter_append]

/-- The place after lexemes that were passed, by the last of them. -/
inductive Ends : List Lexeme → Place → Prop where
  | nil : Ends [] (.start false)
  | link {ls l} {link : Link} (h : l.kind = .keyword link.keyword) : Ends (ls ++ [l]) (.start true)
  | albums {ls l} (h : l.kind = .keyword .onAlbums) : Ends (ls ++ [l]) (.wanting .albums)
  | artists {ls l} (h : l.kind = .keyword .byArtists) : Ends (ls ++ [l]) (.wanting .artists)
  | name {ls l} (h : l.kind = .name) : Ends (ls ++ [l]) (.named (lastList ls) l)
  | comma {ls l} (h : l.kind = .comma) : Ends (ls ++ [l]) (.wanting (lastList ls))
  | ordered {ls l} (h : l.kind = .keyword .ordered) : Ends (ls ++ [l]) .ordered
  | shuffled {ls l} (h : l.kind = .keyword .shuffle) : Ends (ls ++ [l]) .shuffled

theorem Ends.lastList_eq {ls : List Lexeme} {p : Place} (h : Ends ls p) :
    match p with
    | .start _ => lastList ls = .titles
    | .wanting list | .named list _ => lastList ls = list
    | .ordered | .shuffled => True := by
  cases h with
  | nil => rfl
  | @link _ _ link hl => cases link <;> exact lastList_keyword hl
  | albums hl | artists hl => exact lastList_keyword hl
  | name hl | comma hl => exact lastList_concat (by rw [hl]; rfl)
  | ordered | shuffled => trivial

theorem Ends.step {ls : List Lexeme} {l : Lexeme} {p p' : Place} {s s' : Selection} (h : Ends ls p)
    (hl : Step l p s p' s') : Ends (ls ++ [l]) p' := by
  have hlist := h.lastList_eq
  cases hl with
  | title hk =>
    rw [← hlist]
    exact .name hk
  | impliedAlbums hk => exact .albums hk
  | impliedArtists hk => exact .artists hk
  | name hk =>
    rw [← hlist]
    exact .name hk
  | comma hk =>
    rw [← hlist]
    exact .comma hk
  | albums hk _ _ => exact .albums hk
  | artists hk _ _ => exact .artists hk
  | ordered hk => exact .ordered hk
  | shuffle hk _ _ => exact .shuffled hk

theorem Ends.reaches {ls ms : List Lexeme} {p p' : Place} {s s' : Selection} (h : Ends ls p)
    (hr : Reaches p s ms p' s') : Ends (ls ++ ms) p' := by
  induction hr generalizing ls with
  | nil => rwa [List.append_nil]
  | step hl _ ih => simpa using ih (h.step hl)
  | @link _ _ l _ _ _ _ hp hl _ ih =>
    have hlink : Ends (ls ++ [l]) (.start true) := .link hl
    simpa using ih hlink

theorem Reaches.ends {ls : List Lexeme} {p : Place} {s : Selection}
    (h : Reaches (.start false) .empty ls p s) : Ends ls p := Ends.nil.reaches h

end Place

open Lexeme Place

theorem readQuery_of_reaches {p p' : Place} {s s' : Selection} {ls : List Lexeme}
    (h : Reaches p s ls p' s') :
    ∃ f : Query → Query, ∀ rest, readQuery p s (ls ++ rest) = (readQuery p' s' rest).map f := by
  induction h with
  | @nil p s =>
    refine ⟨id, fun rest => ?_⟩
    cases h : readQuery p s rest <;> simp [Except.map, h]
  | step hl _ ih =>
    obtain ⟨f, hf⟩ := ih
    exact ⟨f, fun rest => by rw [List.cons_append, readQuery, move_of_step hl, ← hf]⟩
  | @link p s l _ _ _ link hp hl _ ih =>
    obtain ⟨f, hf⟩ := ih
    refine ⟨fun q => .link s link (f q), fun rest => ?_⟩
    rw [List.cons_append, readQuery_of_link hp hl, hf]
    cases readQuery _ _ rest <;> rfl

theorem readCursor_of_reaches {p p' : Place} {s s' : Selection} {ls : List Lexeme}
    (h : Reaches p s ls p' s') (rest : List Lexeme) :
    readCursor p s (ls ++ rest) = readCursor p' s' rest := by
  induction h with
  | nil => rfl
  | step hl _ ih => rw [List.cons_append, readCursor, move_of_step hl, ← ih]
  | link hp hl _ ih => rw [List.cons_append, readCursor, move_eq_link_iff.2 ⟨hp, hl⟩, ← ih]

theorem readQuery_of_fail {p : Place} {s : Selection} {l : Lexeme} (h : p.move s l = .fail)
    (rest : List Lexeme) : readQuery p s (l :: rest) = .error (.unexpected l (p.expected s)) := by
  rw [readQuery, h]

namespace Query

open ParseError

/-- The lexeme at which a text fails to be a query, if there is one. -/
def offending? (t : Text) : Option Lexeme :=
  match parse t with
  | .ok _ => none
  | .error e => e.lexeme

/-- The lexemes in front of that one, or all of them. -/
def passed (t : Text) : List Lexeme :=
  match offending? t with
  | some l => t.lexemes.takeWhile (·.column < l.column)
  | none => t.lexemes

theorem parse_of_reaches {t : Text} {p : Place} {s : Selection}
    (h : Reaches (.start false) .empty t.lexemes p s) :
    if p.mayEnd then ∃ q, parse t = .ok q
    else parse t = .error ⟨none, kindSet (p.expected s), some t⟩ := by
  obtain ⟨f, hf⟩ := readQuery_of_reaches h
  have hread := hf []
  rw [List.append_nil] at hread
  cases hp : p.mayEnd with
  | true =>
    refine ⟨f (.last s), ?_⟩
    rw [parse, ofLexemes_eq, hread, readQuery_of_mayEnd hp]
    rfl
  | false =>
    rw [if_neg (by simp), parse, ofLexemes_eq, hread, readQuery, hp]
    rfl

theorem parse_of_fail {t : Text} {front rest : List Lexeme} {l : Lexeme} {p : Place}
    {s : Selection} (ht : t.lexemes = front ++ l :: rest)
    (h : Reaches (.start false) .empty front p s) (hl : p.move s l = .fail) :
    parse t = .error ⟨some l, kindSet (p.expected s), some t⟩ := by
  obtain ⟨f, hf⟩ := readQuery_of_reaches h
  rw [parse, ofLexemes_eq, ht, hf, readQuery_of_fail hl]
  rfl

theorem offending?_of_error {t : Text} {e : ParseError} (h : parse t = .error e) :
    offending? t = e.lexeme := by rw [offending?, h]

theorem passed_of_none {t : Text} (h : offending? t = none) : passed t = t.lexemes := by
  rw [passed, h]

theorem offending?_of_reaches {t : Text} {p : Place} {s : Selection}
    (h : Reaches (.start false) .empty t.lexemes p s) : offending? t = none := by
  have hparse := parse_of_reaches h
  split at hparse
  · obtain ⟨q, hq⟩ := hparse
    rw [offending?, hq]
  · exact offending?_of_error hparse

theorem takeWhile_column {front rest : List Lexeme} {l : Lexeme}
    (h : (front ++ l :: rest).Pairwise (·.column < ·.column)) :
    (front ++ l :: rest).takeWhile (·.column < l.column) = front := by
  have hfront : ∀ m ∈ front, m.column < l.column := fun m hm =>
    (List.pairwise_append.1 h).2.2 m hm l List.mem_cons_self
  rw [List.takeWhile_append_of_pos (by simpa using hfront), List.takeWhile_cons_of_neg (by simp),
    List.append_nil]

theorem passed_eq {t : Text} {front rest : List Lexeme} {l : Lexeme} (ho : offending? t = some l)
    (ht : t.lexemes = front ++ l :: rest) : passed t = front := by
  have hcolumns : t.lexemes.Pairwise (·.column < ·.column) := (laid_scan 0 t).pairwise
  rw [passed, ho]
  rw [ht] at hcolumns ⊢
  exact takeWhile_column hcolumns

theorem exists_passed {t : Text} {l : Lexeme} (ho : offending? t = some l) :
    ∃ rest p s, t.lexemes = passed t ++ l :: rest ∧
      Reaches (.start false) .empty (passed t) p s ∧ p.move s l = .fail := by
  obtain ⟨p, s, h⟩ | ⟨front, m, rest, p, s, ht, h, hm⟩ :=
    exists_reaches (.start false) .empty t.lexemes
  · rw [offending?_of_reaches h] at ho
    cases ho
  · have hm' := offending?_of_error (parse_of_fail ht h hm)
    obtain rfl := Option.some.inj (hm'.symm.trans ho)
    rw [passed_eq ho ht]
    exact ⟨rest, p, s, ht, h, hm⟩

theorem exists_reaches_lexemes {t : Text} (ho : offending? t = none) :
    ∃ p s, Reaches (.start false) .empty t.lexemes p s := by
  obtain h | ⟨front, l, rest, p, s, ht, h, hl⟩ :=
    exists_reaches (.start false) .empty t.lexemes
  · exact h
  · rw [offending?_of_error (parse_of_fail ht h hl)] at ho
    cases ho

end Query

end Jukebox
