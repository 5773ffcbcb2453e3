import Jukebox.Proofs.Query.Place

set_option autoImplicit false

namespace Jukebox

namespace Selection

def addNames (s : Selection) (names : List Text) (list : NameList) : Selection :=
  names.foldl (fun s name => s.addName name list) s

theorem addNames_concat (s : Selection) (names : List Text) (name : Text) (list : NameList) :
    s.addNames (names ++ [name]) list = (s.addNames names list).addName name list :=
  List.foldl_append

theorem addNames_titles (s : Selection) (names : List Text) :
    s.addNames names .titles = { s with titles := s.titles ++ names } := by
  induction names generalizing s with
  | nil => simp [addNames]
  | cons n names ih => exact (ih (s.addName n .titles)).trans (by simp [addName])

theorem addNames_albums (s : Selection) (names : List Text) :
    s.addNames names .albums = { s with albums := s.albums.map (· ++ names) } := by
  induction names generalizing s with
  | nil => cases s; simp [addNames]
  | cons n names ih =>
    refine (ih (s.addName n .albums)).trans ?_
    cases h : s.albums <;> simp [addName, h]

theorem addNames_artists (s : Selection) (names : List Text) :
    s.addNames names .artists = { s with artists := s.artists.map (· ++ names) } := by
  induction names generalizing s with
  | nil => cases s; simp [addNames]
  | cons n names ih =>
    refine (ih (s.addName n .artists)).trans ?_
    cases h : s.artists <;> simp [addName, h]

end Selection

namespace Place

def beforeAlbums : Place → Bool
  | .named .titles _ | .named .artists _ => true
  | _ => false

def beforeArtists : Place → Bool
  | .named .titles _ | .named .albums _ | .ordered => true
  | _ => false

theorem and_mem_expected {p : Place} {s : Selection} : .keyword .and ∈ p.expected s ↔ p.mayEnd := by
  rcases p with _ | _ | ⟨_ | _ | _, _⟩ | _ | _ <;> simp [expected, mayEnd]

theorem or_mem_expected {p : Place} {s : Selection} : .keyword .or ∈ p.expected s ↔ p.mayEnd := by
  rcases p with _ | _ | ⟨_ | _ | _, _⟩ | _ | _ <;> simp [expected, mayEnd]

theorem albums_mem_expected {p : Place} {s : Selection} :
    .keyword .onAlbums ∈ p.expected s ↔ p.beforeAlbums ∧ s.albums = none := by
  rcases p with _ | _ | ⟨_ | _ | _, _⟩ | _ | _ <;> simp [expected, beforeAlbums]

theorem artists_mem_expected {p : Place} {s : Selection} :
    .keyword .byArtists ∈ p.expected s ↔ p.beforeArtists ∧ s.artists = none := by
  rcases p with _ | _ | ⟨_ | _ | _, _⟩ | _ | _ <;> simp [expected, beforeArtists]

theorem ordered_mem_expected {p : Place} {s : Selection} :
    .keyword .ordered ∈ p.expected s ↔ ∃ name, p = .named .albums name := by
  rcases p with _ | _ | ⟨_ | _ | _, _⟩ | _ | _ <;> simp [expected]

theorem shuffle_mem_expected {p : Place} {s : Selection} :
    .keyword .shuffle ∈ p.expected s ↔ p.mayEnd ∧ p ≠ .shuffled := by
  rcases p with _ | _ | ⟨_ | _ | _, _⟩ | _ | _ <;> simp [expected, mayEnd]

theorem mayEnd_of_beforeAlbums {p : Place} (h : p.beforeAlbums) : p.mayEnd := by
  rcases p with _ | _ | ⟨_ | _ | _, _⟩ | _ | _ <;> simp_all [beforeAlbums, mayEnd]

theorem mayEnd_of_beforeArtists {p : Place} (h : p.beforeArtists) : p.mayEnd := by
  rcases p with _ | _ | ⟨_ | _ | _, _⟩ | _ | _ <;> simp_all [beforeArtists, mayEnd]

/-- What one lexeme does inside a selection. -/
inductive Step (l : Lexeme) : Place → Selection → Place → Selection → Prop where
  | title {linked s} (h : l.kind = .name) :
      Step l (.start linked) s (.named .titles l) (s.addName l.text .titles)
  | impliedAlbums {linked s} (h : l.kind = .keyword .onAlbums) :
      Step l (.start linked) s (.wanting .albums) ((s.addName matchAll .titles).openList .albums)
  | impliedArtists {linked s} (h : l.kind = .keyword .byArtists) :
      Step l (.start linked) s (.wanting .artists) ((s.addName matchAll .titles).openList .artists)
  | name {list s} (h : l.kind = .name) :
      Step l (.wanting list) s (.named list l) (s.addName l.text list)
  | comma {list name s} (h : l.kind = .comma) : Step l (.named list name) s (.wanting list) s
  | albums {p s} (h : l.kind = .keyword .onAlbums) (hp : p.beforeAlbums) (hs : s.albums = none) :
      Step l p s (.wanting .albums) (s.openList .albums)
  | artists {p s} (h : l.kind = .keyword .byArtists) (hp : p.beforeArtists)
      (hs : s.artists = none) : Step l p s (.wanting .artists) (s.openList .artists)
  | ordered {name s} (h : l.kind = .keyword .ordered) :
      Step l (.named .albums name) s .ordered { s with ordered := true }
  | shuffle {p s} (h : l.kind = .keyword .shuffle) (hp : p.mayEnd) (hn : p ≠ .shuffled) :
      Step l p s .shuffled { s with shuffle := true }

theorem step_of_follow {p p' : Place} {s s' : Selection} {l : Lexeme} {k : Keyword}
    (hl : l.kind = .keyword k) (hk : .keyword k ∈ p.expected s) (h : follow s k = .go p' s') :
    Step l p s p' s' := by
  cases k with
  | and => cases h
  | or => cases h
  | onAlbums =>
    cases h
    obtain ⟨hp, hs⟩ := albums_mem_expected.1 hk
    exact .albums hl hp hs
  | byArtists =>
    cases h
    obtain ⟨hp, hs⟩ := artists_mem_expected.1 hk
    exact .artists hl hp hs
  | ordered =>
    cases h
    obtain ⟨name, rfl⟩ := ordered_mem_expected.1 hk
    exact .ordered hl
  | shuffle =>
    cases h
    obtain ⟨hp, hn⟩ := shuffle_mem_expected.1 hk
    exact .shuffle hl hp hn

theorem move_keyword {p : Place} {s : Selection} {l : Lexeme} {k : Keyword}
    (hl : l.kind = .keyword k) (hp : p.mayEnd) :
    p.move s l = if .keyword k ∈ p.expected s then follow s k else .fail := by
  cases p <;> simp_all [move, mayEnd]

theorem follow_ne_fail (s : Selection) (k : Keyword) : follow s k ≠ .fail := by
  cases k <;> nofun

theorem move_ne_fail_of_mayEnd {p : Place} {s : Selection} {l : Lexeme} (hp : p.mayEnd) :
    p.move s l ≠ .fail ↔ l.kind ∈ p.expected s := by
  obtain ⟨kind, text, column⟩ := l
  cases kind with
  | keyword k =>
    rw [move_keyword rfl hp]
    by_cases hk : .keyword k ∈ p.expected s <;> simp [hk, follow_ne_fail]
  | name | comma | invalid =>
    rcases p with _ | _ | ⟨_ | _ | _, _⟩ | _ | _ <;> simp_all [move, expected, mayEnd]

theorem step_of_move {p p' : Place} {s s' : Selection} {l : Lexeme}
    (h : p.move s l = .go p' s') : Step l p s p' s' := by
  unfold move at h
  split at h
  · next hl => cases h; exact .title hl
  · next hl => cases h; exact .impliedAlbums hl
  · next hl => cases h; exact .impliedArtists hl
  · next hl => cases h; exact .name hl
  · next hl => cases h; exact .comma hl
  · next hl =>
    split at h
    · next hk => exact step_of_follow hl hk.2 h
    · cases h
  · cases h

theorem move_of_step {p p' : Place} {s s' : Selection} {l : Lexeme} (h : Step l p s p' s') :
    p.move s l = .go p' s' := by
  cases h with
  | title h => simp [move, h]
  | impliedAlbums h => simp [move, h, follow]
  | impliedArtists h => simp [move, h, follow]
  | name h => simp [move, h]
  | comma h => simp [move, h]
  | albums h hp hs =>
    rw [move_keyword h (mayEnd_of_beforeAlbums hp), if_pos (albums_mem_expected.2 ⟨hp, hs⟩), follow]
  | artists h hp hs =>
    rw [move_keyword h (mayEnd_of_beforeArtists hp), if_pos (artists_mem_expected.2 ⟨hp, hs⟩),
      follow]
  | ordered h => rw [move_keyword h rfl, if_pos (ordered_mem_expected.2 ⟨_, rfl⟩), follow]
  | shuffle h hp hn => rw [move_keyword h hp, if_pos (shuffle_mem_expected.2 ⟨hp, hn⟩), follow]

theorem link_mem_expected {p : Place} {s : Selection} {link : Link} :
    .keyword link.keyword ∈ p.expected s ↔ p.mayEnd := by
  cases link with
  | and => exact and_mem_expected
  | or => exact or_mem_expected

theorem eq_of_follow_link {s : Selection} {k : Keyword} {link : Link}
    (h : follow s k = .link link) : k = link.keyword := by cases k <;> cases h <;> rfl

theorem move_eq_link_iff {p : Place} {s : Selection} {l : Lexeme} {link : Link} :
    p.move s l = .link link ↔ p.mayEnd ∧ l.kind = .keyword link.keyword := by
  constructor
  · intro h
    unfold move at h
    split at h
    · cases h
    · cases h
    · cases h
    · cases h
    · cases h
    · next hl =>
      split at h
      · next hk => exact ⟨hk.1, eq_of_follow_link h ▸ hl⟩
      · cases h
    · cases h
  · rintro ⟨hp, hl⟩
    rw [move_keyword hl hp, if_pos (link_mem_expected.2 hp)]
    cases link <;> rfl

inductive Runs : Place → Selection → List Lexeme → Place → Selection → Prop where
  | nil {p s} : Runs p s [] p s
  | cons {p s l p' s' ls p'' s''} (h : Step l p s p' s') (hs : Runs p' s' ls p'' s'') :
      Runs p s (l :: ls) p'' s''

theorem Runs.trans {p p' p'' : Place} {s s' s'' : Selection} {ls ms : List Lexeme}
    (h : Runs p s ls p' s') (h' : Runs p' s' ms p'' s'') : Runs p s (ls ++ ms) p'' s'' := by
  induction h with
  | nil => exact h'
  | cons hl _ ih => exact .cons hl (ih h')

theorem Runs.one {p p' : Place} {s s' : Selection} {l : Lexeme} (h : Step l p s p' s') :
    Runs p s [l] p' s' := .cons h .nil

end Place

open Place

theorem readQuery_of_runs {p p' : Place} {s s' : Selection} {ls : List Lexeme}
    (h : Runs p s ls p' s') (rest : List Lexeme) :
    readQuery p s (ls ++ rest) = readQuery p' s' rest := by
  induction h with
  | nil => rfl
  | cons hl _ ih => rw [List.cons_append, readQuery, move_of_step hl, ← ih]

theorem readCursor_of_runs {p p' : Place} {s s' : Selection} {ls : List Lexeme}
    (h : Runs p s ls p' s') (rest : List Lexeme) :
    readCursor p s (ls ++ rest) = readCursor p' s' rest := by
  induction h with
  | nil => rfl
  | cons hl _ ih => rw [List.cons_append, readCursor, move_of_step hl, ← ih]

theorem readQuery_of_mayEnd {p : Place} {s : Selection} (h : p.mayEnd) :
    readQuery p s [] = .ok (.last s) := by rw [readQuery, if_pos h]

theorem readQuery_of_link {p : Place} {s : Selection} {l : Lexeme} {link : Link} (h : p.mayEnd)
    (hl : l.kind = .keyword link.keyword) (rest : List Lexeme) :
    readQuery p s (l :: rest) = (readQuery (.start true) .empty rest).map (.link s link) := by
  rw [readQuery, move_eq_link_iff.2 ⟨h, hl⟩]

/-- A query that is read ends after a run of steps, or is linked to what the rest is read as. -/
theorem exists_runs_of_readQuery {p : Place} {s : Selection} {ls : List Lexeme} {q : Query}
    (h : readQuery p s ls = .ok q) :
    (∃ p' s', Runs p s ls p' s' ∧ p'.mayEnd ∧ q = .last s') ∨
      ∃ front l rest p' s' link q', ls = front ++ l :: rest ∧ Runs p s front p' s' ∧ p'.mayEnd ∧
        l.kind = .keyword link.keyword ∧ readQuery (.start true) .empty rest = .ok q' ∧
        q = .link s' link q' := by
  -- On the lexemes, from every place, since the run stops only at the first link.
  induction ls generalizing p s with
  | nil =>
    rw [readQuery] at h
    split at h
    · next hp => exact .inl ⟨p, s, .nil, hp, (Except.ok.inj h).symm⟩
    · cases h
  | cons l ls ih =>
    rw [readQuery] at h
    split at h
    · next p' s' hm =>
      have hl := step_of_move hm
      obtain ⟨p'', s'', hr, hp, hq⟩ | ⟨front, m, rest, p'', s'', link, q', rfl, hr, hp, hrest⟩ :=
        ih h
      · exact .inl ⟨p'', s'', .cons hl hr, hp, hq⟩
      · exact .inr ⟨l :: front, m, rest, p'', s'', link, q', rfl, .cons hl hr, hp, hrest⟩
    · next link hm =>
      obtain ⟨hp, hl⟩ := move_eq_link_iff.1 hm
      cases hr : readQuery (.start true) .empty ls with
      | error e => rw [hr] at h; cases h
      | ok q' =>
        rw [hr] at h
        exact .inr ⟨[], l, ls, p, s, link, q', rfl, .nil, hp, hl, hr, (Except.ok.inj h).symm⟩
    · cases h

end Jukebox
